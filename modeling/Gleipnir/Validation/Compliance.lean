import Gleipnir.Lib.Tiling
import Gleipnir.Validation.Mandates

/-!
# The compliance checker

`validation/compliance_checker.go`: an audit window is cut into the intervals a rule of a mandate obliges the operator to fill,
and an interval that no entry fills is reported as a gap.

The cutting is a loop over `int64` timestamps, whose counter wraps around. `buckets` takes a number of rounds and answers
`none` if the loop is not over after them: it returns if some number of rounds is enough (`buckets_ends_iff`).

* `buckets_tile`: as long as no round leaves the range of `int64`, the buckets tile the window
* `obligations_tile_iff`: the expectations of a rule tile the window exactly if it is not empty, or, for a rule with a bound,
  if whole steps lead from its start to its end or past it within the range of `int64`
-/

namespace Gleipnir

open Tiling

/-- `ComplianceWindow`. -/
structure ComplianceWindow where
  startTimestamp : Int64
  endTimestamp : Int64
  startCycle : UInt64
  endCycle : UInt64
  deriving DecidableEq

/-- The errors of the checker: three that wrap `ErrComplianceWindowInvalid`, and `ErrMandateNotFound`. -/
inductive ComplianceError where
  | timestampsNotSet
  | endBeforeStart (endTimestamp startTimestamp : Int64)
  | endCycleBeforeStart (endCycle startCycle : UInt64)
  | mandateNotFound (mandateID : Hash)
  deriving DecidableEq

/-- `ComplianceWindow.Validate`. -/
def ComplianceWindow.validate (w : ComplianceWindow) : Except ComplianceError Unit :=
  if w.startTimestamp ≤ 0 ∨ w.endTimestamp ≤ 0 then .error .timestampsNotSet
  else if w.endTimestamp < w.startTimestamp then .error (.endBeforeStart w.endTimestamp w.startTimestamp)
  else if w.endCycle < w.startCycle then .error (.endCycleBeforeStart w.endCycle w.startCycle)
  else .ok ()

/-- What a valid window is. -/
theorem ComplianceWindow.validate_ok_iff {w : ComplianceWindow} : w.validate = .ok () ↔
    0 < w.startTimestamp ∧ 0 < w.endTimestamp ∧ w.startTimestamp ≤ w.endTimestamp ∧ w.startCycle ≤ w.endCycle := by
  unfold validate
  split_ifs with htimes hend hcycle
  · refine iff_of_false (fun h => by cases h) fun h => ?_
    exact htimes.elim (Int64.not_le.2 h.1) (Int64.not_le.2 h.2.1)
  · exact iff_of_false (fun h => by cases h) fun h => Int64.not_lt.2 h.2.2.1 hend
  · exact iff_of_false (fun h => by cases h) fun h => UInt64.not_lt.2 h.2.2.2 hcycle
  · rw [not_or] at htimes
    exact iff_of_true rfl ⟨Int64.not_le.1 htimes.1, Int64.not_le.1 htimes.2, Int64.not_lt.1 hend, UInt64.not_lt.1 hcycle⟩

/-- `expectation`. -/
abbrev Expectation : Type := Span Int64

/-- `time.Second`, in nanoseconds. -/
def second : Int64 := 1000000000

/-- The longest deferral whose nanoseconds are an `int64`. -/
def maxDeferralSec : UInt64 := 9223372036854775807 / 1000000000

/-- The loop of `expectedEvents` from `bucketStart` on, at most `fuel` rounds of it. The sums are those of `int64`. -/
def buckets (step stop : Int64) : ℕ → Int64 → Option (List Expectation)
  | 0, _ => none
  | fuel + 1, bucketStart =>
    if bucketStart < stop then
      let bucketEnd := if bucketStart + step > stop then stop else bucketStart + step
      (buckets step stop fuel (bucketStart + step)).map (⟨bucketStart, bucketEnd⟩ :: ·)
    else some []

/-- The step of the loop in nanoseconds. -/
def Rule.step (rule : Rule) : Int64 := rule.maxDeferralSec.toInt64 * second

/-- `expectedEvents`. -/
def expectedEvents (fuel : ℕ) (rule : Rule) (window : ComplianceWindow) : Option (List Expectation) :=
  if rule.maxDeferralSec = 0 then some [⟨window.startTimestamp, window.endTimestamp⟩]
  else if rule.maxDeferralSec > maxDeferralSec then some [⟨window.startTimestamp, window.endTimestamp⟩]
  else if rule.step ≤ 0 then some [⟨window.startTimestamp, window.endTimestamp⟩]
  else buckets rule.step window.endTimestamp fuel window.startTimestamp

/-- `missingFields`. -/
def missingFields (rule : Rule) (entry : ProvenanceEntry) : List String :=
  rule.requiredFields.filter fun field => !entryHasField entry field

/-- The loop of `findMatchingEntry`, with the first incomplete entry it has met and the fields that entry lacks. -/
def findFrom (rule : Rule) (exp : Expectation) (found : Option (ProvenanceEntry × List String)) :
    List ProvenanceEntry → Option (ProvenanceEntry × List String)
  | [] => found
  | entry :: entries =>
    if !entryMatchesRule entry rule then findFrom rule exp found entries
    else if entry.timestamp < exp.start || entry.timestamp ≥ exp.stop then findFrom rule exp found entries
    else if (missingFields rule entry).isEmpty then some (entry, [])
    else findFrom rule exp (found.or (some (entry, missingFields rule entry))) entries

/-- `findMatchingEntry`. -/
def findMatchingEntry (rule : Rule) (exp : Expectation) (entries : List ProvenanceEntry) :
    Option (ProvenanceEntry × List String) :=
  findFrom rule exp none entries

/-- The two statuses of a gap. -/
inductive ComplianceStatus where
  | missing
  | missingFields
  deriving DecidableEq

/-- The text of a gap, with what is formatted into it. -/
inductive GapDetails where
  /-- `no entry labelled %q anchored in this window` -/
  | noEntry (eventClass : String)
  /-- `entry labelled %q is missing required fields %v` -/
  | incomplete (eventClass : String) (fields : List String)
  deriving DecidableEq

/-- `ComplianceGap`. -/
structure ComplianceGap where
  mandateID : Hash
  ruleIndex : ℕ
  eventClass : String
  windowStart : Int64
  windowEnd : Int64
  status : ComplianceStatus
  details : GapDetails
  missingFields : List String
  deriving DecidableEq

/-- `ComplianceReport`. The rate is the quotient that the source rounds to a `float64`. -/
structure ComplianceReport where
  mandateID : Hash
  mandateLabel : String
  window : ComplianceWindow
  totalExpected : ℕ := 0
  totalAnchored : ℕ := 0
  gaps : List ComplianceGap := []
  complianceRate : ℚ := 0
  timestamp : Int64
  deriving DecidableEq

/-- The gap that is reported for an expectation, `matched` being what `findMatchingEntry` answered. -/
def gapFor (mandateID : Hash) (index : ℕ) (rule : Rule) (exp : Expectation)
    (matched : Option (ProvenanceEntry × List String)) : ComplianceGap :=
  let gap : ComplianceGap :=
    { mandateID, ruleIndex := index, eventClass := rule.eventClass, windowStart := exp.start, windowEnd := exp.stop,
      status := .missing, details := .noEntry rule.eventClass, missingFields := [] }
  match matched with
  | none => gap
  | some (_, fields) =>
    { gap with status := .missingFields, missingFields := fields, details := .incomplete rule.eventClass fields }

/-- One round of the inner loop of `CheckComplianceMandate`. -/
def checkExpectation (mandateID : Hash) (entries : List ProvenanceEntry) (index : ℕ) (rule : Rule)
    (report : ComplianceReport) (exp : Expectation) : ComplianceReport :=
  let report := { report with totalExpected := report.totalExpected + 1 }
  let matched := findMatchingEntry rule exp entries
  if matched.any fun found => found.2.isEmpty then { report with totalAnchored := report.totalAnchored + 1 }
  else { report with gaps := report.gaps ++ [gapFor mandateID index rule exp matched] }

/-- One round of its outer loop. -/
def checkRule (fuel : ℕ) (mandateID : Hash) (window : ComplianceWindow) (entries : List ProvenanceEntry)
    (report : ComplianceReport) (rule : Rule × ℕ) : Option ComplianceReport :=
  if !rule.1.mandatory then some report
  else (expectedEvents fuel rule.1 window).map fun exps =>
    exps.foldl (checkExpectation mandateID entries rule.2 rule.1) report

/-- The end of `CheckComplianceMandate`. -/
def ComplianceReport.rated (report : ComplianceReport) : ComplianceReport :=
  if report.totalExpected > 0 then { report with complianceRate := report.totalAnchored / report.totalExpected } else report

/-- `CheckComplianceMandate`, at the time `now`, each of its bucket loops being given `fuel` rounds. -/
def checkComplianceMandate (fuel : ℕ) (resolver : MandateResolver) (mandateID : Hash) (window : ComplianceWindow)
    (entries : List ProvenanceEntry) (now : Int64) : Option (Except ComplianceError ComplianceReport) :=
  match window.validate with
  | .error err => some (.error err)
  | .ok () =>
    match resolver.getMandateByID mandateID with
    | none => some (.error (.mandateNotFound mandateID))
    | some mandate =>
      (mandate.rules.zipIdx.foldlM (checkRule fuel mandateID window entries)
        { mandateID, mandateLabel, window, timestamp := now }).map fun report => .ok report.rated

/-- The loop of `CheckAllMandates`. -/
def checkMandates (fuel : ℕ) (resolver : MandateResolver) (window : ComplianceWindow) (entries : List ProvenanceEntry)
    (now : Int64) : List MandateEntry → Option (Except ComplianceError (List ComplianceReport))
  | [] => some (.ok [])
  | m :: mandates =>
    match checkComplianceMandate fuel resolver m.id window entries now with
    | none => none
    | some (.error err) => some (.error err)
    | some (.ok report) => (checkMandates fuel resolver window entries now mandates).map (·.map (report :: ·))

/-- `CheckAllMandates`. -/
def checkAllMandates (fuel : ℕ) (resolver : MandateResolver) (window : ComplianceWindow) (entries : List ProvenanceEntry)
    (now : Int64) : Option (Except ComplianceError (List ComplianceReport)) :=
  match window.validate with
  | .error err => some (.error err)
  | .ok () => checkMandates fuel resolver window entries now resolver.all

/-! ## Sums of timestamps -/

variable {b step : Int64} {rule : Rule} {window : ComplianceWindow} {fuel fuel' : ℕ}

/-- A sum of `int64` that is in their range is the sum. -/
theorem toInt_add_of_lt (hstep : 0 < step.toInt) (h : b.toInt + step.toInt < 2 ^ 63) :
    (b + step).toInt = b.toInt + step.toInt := by
  have hb := b.le_toInt
  rw [Int64.toInt_add, Int.bmod_def]
  omega

/-- A sum of `int64` with a positive number is larger exactly if it is in their range. -/
theorem lt_add_iff (hstep : 0 < step.toInt) : b < b + step ↔ b.toInt + step.toInt < 2 ^ 63 := by
  constructor
  · intro hlt
    by_contra hover
    have hb := b.toInt_lt
    have hs := step.toInt_lt
    rw [Int64.lt_iff_toInt_lt, Int64.toInt_add, Int.bmod_def] at hlt
    omega
  · intro h
    rw [Int64.lt_iff_toInt_lt, toInt_add_of_lt hstep h]
    omega

/-! ## The loop -/

section Loop

variable {step stop b : Int64} {fuel : ℕ} {out : List Expectation}

/-- The ways in which the loop returns. -/
theorem buckets_eq_some : buckets step stop (fuel + 1) b = some out ↔
    (¬ b < stop ∧ out = []) ∨
    (b < stop ∧ ∃ rest, buckets step stop fuel (b + step) = some rest ∧
      out = ⟨b, if b + step > stop then stop else b + step⟩ :: rest) := by
  rw [buckets]
  by_cases hlt : b < stop
  · rw [if_pos hlt, Option.map_eq_some_iff]
    simp only [hlt, not_true_eq_false, false_and, true_and, false_or, eq_comm (a := out)]
  · rw [if_neg hlt, Option.some.injEq]
    simp only [hlt, not_false_eq_true, true_and, false_and, or_false, eq_comm (a := out)]

/-- More rounds change nothing. -/
theorem buckets_mono {fuel' : ℕ} (hle : fuel ≤ fuel') (h : buckets step stop fuel b = some out) :
    buckets step stop fuel' b = some out := by
  induction fuel generalizing fuel' b out with
  | zero => cases h
  | succ fuel ih =>
    obtain ⟨f, rfl⟩ : ∃ f, fuel' = f + 1 := ⟨fuel' - 1, by omega⟩
    rw [buckets_eq_some] at h ⊢
    rcases h with hdone | ⟨hlt, rest, hrest, rfl⟩
    · exact .inl hdone
    · exact .inr ⟨hlt, rest, ih (by omega) hrest, rfl⟩

/-- The counter of the loop after one round more. -/
theorem counter_succ (b step : Int64) (n : ℕ) : b + Int64.ofNat (n + 1) * step = b + step + Int64.ofNat n * step := by
  rw [Int64.ofNat_add]
  grind

/-- The loop returns exactly if its counter comes to the end of the window or past it, modulo `2 ^ 64`. -/
theorem buckets_ends_iff : (∃ fuel out, buckets step stop fuel b = some out) ↔ ∃ n : ℕ, ¬ b + Int64.ofNat n * step < stop := by
  constructor
  · rintro ⟨fuel, out, h⟩
    induction fuel generalizing b out with
    | zero => cases h
    | succ fuel ih =>
      rcases buckets_eq_some.1 h with ⟨hdone, -⟩ | ⟨-, rest, hrest, -⟩
      · exact ⟨0, by simpa using hdone⟩
      · obtain ⟨n, hn⟩ := ih rest hrest
        exact ⟨n + 1, by rwa [counter_succ]⟩
  · rintro ⟨n, hn⟩
    induction n generalizing b with
    | zero => exact ⟨1, [], buckets_eq_some.2 (.inl ⟨by simpa using hn, rfl⟩)⟩
    | succ n ih =>
      by_cases hlt : b < stop
      · obtain ⟨fuel, rest, hrest⟩ := ih (b := b + step) (by rwa [← counter_succ])
        exact ⟨fuel + 1, _, buckets_eq_some.2 (.inr ⟨hlt, rest, hrest, rfl⟩)⟩
      · exact ⟨1, [], buckets_eq_some.2 (.inl ⟨hlt, rfl⟩)⟩

/-- `n` whole steps lead from `b` to `stop` or past it, within the range of `int64`. -/
def Reaches (step stop b : Int64) (n : ℕ) : Prop :=
  stop.toInt ≤ b.toInt + n * step.toInt ∧ b.toInt + n * step.toInt < 2 ^ 63

/-- A round of the loop takes one of the steps, and its sum is in range. -/
theorem Reaches.next {n : ℕ} (hstep : 0 < step.toInt) (h : Reaches step stop b n) (hlt : b < stop) :
    (b + step).toInt = b.toInt + step.toInt ∧ ∃ m, n = m + 1 ∧ Reaches step stop (b + step) m := by
  obtain ⟨hstop, hrange⟩ := h
  rw [Int64.lt_iff_toInt_lt] at hlt
  cases n with
  | zero => simp only [Nat.cast_zero, zero_mul] at hstop; omega
  | succ m =>
    have hm : 0 ≤ (m : ℤ) * step.toInt := by positivity
    have hsplit := succ_mul_step m step.toInt
    have hadd := toInt_add_of_lt (b := b) hstep (by omega)
    exact ⟨hadd, m, rfl, by unfold Reaches; omega⟩

/-- The steps that remain after `k` of them. -/
theorem Reaches.drop {mid : Int64} {k n : ℕ} (hstep : 0 < step.toInt) (h : Reaches step stop b n)
    (hmid : mid.toInt = b.toInt + k * step.toInt) : Reaches step stop mid (n - k) := by
  obtain ⟨hstop, hrange⟩ := h
  unfold Reaches
  rcases le_total n k with hnk | hkn
  · have hmul := mul_le_mul_of_nonneg_right (Int.ofNat_le.2 hnk) hstep.le
    have hmax := mid.toInt_lt
    rw [Nat.sub_eq_zero_of_le hnk]
    simp only [Nat.cast_zero, zero_mul]
    omega
  · rw [Nat.cast_sub hkn, sub_mul]
    omega

/-- The end of a bucket over the integers. -/
theorem bucketEnd_toInt (stop : Int64) (hadd : (b + step).toInt = b.toInt + step.toInt) :
    (if b + step > stop then stop else b + step).toInt = min (b.toInt + step.toInt) stop.toInt := by
  split
  · rename_i h
    rw [gt_iff_lt, Int64.lt_iff_toInt_lt, hadd] at h
    omega
  · rename_i h
    rw [gt_iff_lt, Int64.lt_iff_toInt_lt, hadd] at h
    omega

/-- Enough rounds bring the loop to its end. -/
theorem buckets_of_reaches (hstep : 0 < step.toInt) {n : ℕ} (h : Reaches step stop b n) :
    ∃ out, buckets step stop (n + 1) b = some out := by
  induction n generalizing b with
  | zero =>
    have hdone : ¬ b < stop := by
      rw [Int64.lt_iff_toInt_lt]
      have := h.1
      simp only [Nat.cast_zero, zero_mul] at this
      omega
    exact ⟨[], buckets_eq_some.2 (.inl ⟨hdone, rfl⟩)⟩
  | succ n ih =>
    by_cases hlt : b < stop
    · obtain ⟨-, m, hm, hnext⟩ := h.next hstep hlt
      obtain rfl : n = m := by omega
      obtain ⟨rest, hrest⟩ := ih hnext
      exact ⟨_, buckets_eq_some.2 (.inr ⟨hlt, rest, hrest, rfl⟩)⟩
    · exact ⟨[], buckets_eq_some.2 (.inl ⟨hlt, rfl⟩)⟩

/-- **Buckets.** If whole steps reach the end of the window in range, then the buckets tile the window, none is longer than a
step, and the window has a bucket from each whole number of steps on. -/
theorem buckets_tile (hstep : 0 < step.toInt) {n : ℕ} (hreach : Reaches step stop b n)
    (h : buckets step stop fuel b = some out) :
    Tiles b.toInt stop.toInt (out.map (·.map Int64.toInt)) ∧ (∀ i ∈ out, i.stop.toInt - i.start.toInt ≤ step.toInt) ∧
      ∀ k : ℕ, b.toInt + k * step.toInt < stop.toInt → ∃ i ∈ out, i.start.toInt = b.toInt + k * step.toInt ∧
        i.stop.toInt = min (b.toInt + (k + 1) * step.toInt) stop.toInt := by
  induction fuel generalizing b n out with
  | zero => cases h
  | succ fuel ih =>
    rcases buckets_eq_some.1 h with ⟨hdone, rfl⟩ | ⟨hlt, rest, hrest, rfl⟩
    · rw [Int64.lt_iff_toInt_lt] at hdone
      refine ⟨.nil (by omega), by simp, fun k hk => ?_⟩
      have hks : 0 ≤ (k : ℤ) * step.toInt := by positivity
      omega
    · obtain ⟨hadd, m, rfl, hnext⟩ := hreach.next hstep hlt
      obtain ⟨htiles, hlength, hgrid⟩ := ih hnext hrest
      have hend := bucketEnd_toInt stop hadd
      rw [Int64.lt_iff_toInt_lt] at hlt
      rw [hadd] at htiles hgrid
      refine ⟨?_, ?_, ?_⟩
      · rw [List.map_cons, Span.map, hend]
        rcases le_total (b.toInt + step.toInt) stop.toInt with hle | hge
        · rw [min_eq_left hle]
          exact htiles.cons (by omega) hle
        · -- the last bucket is cut: the loop is over, and nothing is left to tile
          obtain rfl : rest = [] := by
            cases rest with
            | nil => rfl
            | cons i rest =>
              have hi := htiles.nonempty _ List.mem_cons_self
              have hcov := (htiles.covers _).1 ⟨_, List.mem_cons_self, le_rfl, hi⟩
              omega
          rw [min_eq_right hge]
          exact .single hlt
      · intro i hi
        rcases List.mem_cons.1 hi with rfl | hi
        · dsimp only
          rw [hend]
          omega
        · exact hlength i hi
      · intro k hk
        cases k with
        | zero => exact ⟨_, List.mem_cons_self, by simp, by rw [hend]; simp⟩
        | succ k =>
          have hsplit := succ_mul_step k step.toInt
          obtain ⟨i, hi, hstart, hstop⟩ := hgrid k (by omega)
          refine ⟨i, List.mem_cons_of_mem _ hi, by omega, ?_⟩
          rw [hstop]
          congr 1
          push_cast
          rw [add_one_mul, add_one_mul, add_one_mul]
          omega

/-- **The buckets in closed form**: one from each value of the counter on, up to the first that is not before the end. -/
theorem mem_buckets_iff (h : buckets step stop fuel b = some out) {i : Expectation} :
    i ∈ out ↔ ∃ n : ℕ, (∀ m ≤ n, b + Int64.ofNat m * step < stop) ∧
      i = ⟨b + Int64.ofNat n * step,
        if b + Int64.ofNat (n + 1) * step > stop then stop else b + Int64.ofNat (n + 1) * step⟩ := by
  have hzero : ∀ b : Int64, b + Int64.ofNat 0 * step = b := fun b => by simp
  induction fuel generalizing b out with
  | zero => cases h
  | succ fuel ih =>
    rcases buckets_eq_some.1 h with ⟨hdone, rfl⟩ | ⟨hlt, rest, hrest, rfl⟩
    · refine iff_of_false List.not_mem_nil ?_
      rintro ⟨n, hbefore, -⟩
      exact hdone (hzero b ▸ hbefore 0 (Nat.zero_le n))
    · refine (List.mem_cons.trans (or_congr_right (ih hrest))).trans ⟨?_, ?_⟩
      · rintro (rfl | ⟨n, hbefore, rfl⟩)
        · refine ⟨0, fun m hm => ?_, by rw [counter_succ, hzero, hzero]⟩
          rw [Nat.le_zero.1 hm, hzero]
          exact hlt
        · refine ⟨n + 1, fun m hm => ?_, by rw [counter_succ b, counter_succ b]⟩
          cases m with
          | zero => rw [hzero]; exact hlt
          | succ m => rw [counter_succ]; exact hbefore m (by omega)
      · rintro ⟨n, hbefore, rfl⟩
        cases n with
        | zero => exact .inl (by rw [counter_succ, hzero, hzero])
        | succ n =>
          refine .inr ⟨n, fun m hm => ?_, by rw [counter_succ b, counter_succ b]⟩
          rw [← counter_succ]
          exact hbefore (m + 1) (by omega)

/-- **Cutting at a border.** If whole steps lead from `b` to `mid`, then the buckets up to `stop` are those up to `mid` and those
from `mid` on. -/
theorem buckets_split {mid : Int64} (hstep : 0 < step.toInt) {k n : ℕ} (hmid : mid.toInt = b.toInt + k * step.toInt)
    (hle : mid.toInt ≤ stop.toInt) (hreach : Reaches step stop mid n) :
    ∃ before after, buckets step mid (k + 1) b = some before ∧ buckets step stop (n + 1) mid = some after ∧
      buckets step stop (k + n + 1) b = some (before ++ after) := by
  obtain ⟨after, hafter⟩ := buckets_of_reaches hstep hreach
  induction k generalizing b with
  | zero =>
    obtain rfl : mid = b := Int64.toInt_inj.1 (by simpa using hmid)
    have hdone : ¬ mid < mid := by rw [Int64.lt_iff_toInt_lt]; omega
    exact ⟨[], after, buckets_eq_some.2 (.inl ⟨hdone, rfl⟩), hafter, by rwa [Nat.zero_add]⟩
  | succ k ih =>
    -- the first bucket ends at `mid` or before it, so neither of the two ends cuts it
    have hk : 0 ≤ (k : ℤ) * step.toInt := by positivity
    have hmid' := mid.toInt_lt
    rw [succ_mul_step] at hmid
    have hadd := toInt_add_of_lt (b := b) hstep (by omega)
    obtain ⟨before, after', hbefore, hafter', hall⟩ := ih (b := b + step) (by omega)
    have hlt : b < mid := by rw [Int64.lt_iff_toInt_lt]; omega
    have hlt' : b < stop := by rw [Int64.lt_iff_toInt_lt]; omega
    have hcut : ¬ b + step > mid := by rw [gt_iff_lt, Int64.lt_iff_toInt_lt]; omega
    have hcut' : ¬ b + step > stop := by rw [gt_iff_lt, Int64.lt_iff_toInt_lt]; omega
    refine ⟨⟨b, b + step⟩ :: before, after', buckets_eq_some.2 (.inr ⟨hlt, before, hbefore, by rw [if_neg hcut]⟩), hafter', ?_⟩
    rw [show k + 1 + n + 1 = k + n + 1 + 1 by omega]
    exact buckets_eq_some.2 (.inr ⟨hlt', before ++ after', hall, by rw [if_neg hcut']; rfl⟩)

/-- If no bucket is empty, then no round left the range of `int64`. -/
theorem reaches_of_nonempty (hstep : 0 < step.toInt) (h : buckets step stop fuel b = some out)
    (hne : ∀ i ∈ out, i.start < i.stop) : ∃ n, Reaches step stop b n := by
  induction fuel generalizing b out with
  | zero => cases h
  | succ fuel ih =>
    rcases buckets_eq_some.1 h with ⟨hdone, rfl⟩ | ⟨hlt, rest, hrest, rfl⟩
    · rw [Int64.lt_iff_toInt_lt] at hdone
      exact ⟨0, by have := b.toInt_lt; unfold Reaches; simp only [Nat.cast_zero, zero_mul]; omega⟩
    · have hfirst : b < b + step := by
        have hb := hne _ List.mem_cons_self
        dsimp only at hb
        split at hb
        · rename_i hgt
          rw [gt_iff_lt, Int64.lt_iff_toInt_lt] at hgt
          rw [Int64.lt_iff_toInt_lt] at hb ⊢
          omega
        · exact hb
      have hadd := toInt_add_of_lt hstep ((lt_add_iff hstep).1 hfirst)
      obtain ⟨n, hstop, hrange⟩ := ih hrest fun i hi => hne i (List.mem_cons_of_mem _ hi)
      refine ⟨n + 1, ?_⟩
      rw [hadd] at hstop hrange
      have hsplit := succ_mul_step n step.toInt
      unfold Reaches
      omega

end Loop

/-! ## The expectations of a rule -/

/-- The deferral of a rule in nanoseconds, over the integers. -/
def Rule.deferral (rule : Rule) : ℤ := rule.maxDeferralSec.toNat * 1000000000

/-- The deferral of the rule is positive and its nanoseconds are an `int64`. -/
def Rule.Bounded (rule : Rule) : Prop := 0 < rule.maxDeferralSec ∧ rule.maxDeferralSec ≤ Gleipnir.maxDeferralSec

instance (rule : Rule) : Decidable rule.Bounded := inferInstanceAs (Decidable (_ ∧ _))

theorem maxDeferralSec_toNat : maxDeferralSec.toNat = 9223372036 := by decide

/-- The step of a bounded rule is its deferral. -/
theorem Rule.Bounded.step_toInt (h : rule.Bounded) : rule.step.toInt = rule.deferral := by
  obtain ⟨hpos, hle⟩ := h
  rw [UInt64.le_iff_toNat_le, maxDeferralSec_toNat] at hle
  have hsec : rule.maxDeferralSec.toInt64.toInt = rule.maxDeferralSec.toNat := by
    have hofNat := Int64.toInt_ofNat_of_lt (n := rule.maxDeferralSec.toNat) (by omega)
    rwa [← UInt64.toInt64_ofNat', UInt64.ofNat_toNat] at hofNat
  have hsecond : second.toInt = 1000000000 := by decide
  rw [Rule.step, Int64.toInt_mul, hsec, hsecond, Int.bmod_def, Rule.deferral]
  omega

theorem Rule.Bounded.deferral_pos (h : rule.Bounded) : 0 < rule.deferral := by
  have hpos := UInt64.lt_iff_toNat_lt.1 h.1
  rw [UInt64.toNat_zero] at hpos
  unfold Rule.deferral
  omega

theorem Rule.Bounded.step_pos (h : rule.Bounded) : 0 < rule.step.toInt := by
  rw [h.step_toInt]
  exact h.deferral_pos

/-- A bounded rule runs the loop. -/
theorem expectedEvents_of_bounded (h : rule.Bounded) (fuel : ℕ) (window : ComplianceWindow) :
    expectedEvents fuel rule window = buckets rule.step window.endTimestamp fuel window.startTimestamp := by
  have hstep : ¬ rule.step ≤ 0 := by
    rw [Int64.le_iff_toInt_le, Int64.toInt_zero]
    exact not_le.2 h.step_pos
  have hzero : rule.maxDeferralSec ≠ 0 := fun heq => absurd h.1 (by rw [heq]; decide)
  rw [expectedEvents, if_neg hzero, if_neg (UInt64.not_lt.2 h.2), if_neg hstep]

/-- A rule without a bound has one expectation, the window. -/
theorem expectedEvents_of_not_bounded (h : ¬ rule.Bounded) (fuel : ℕ) (window : ComplianceWindow) :
    expectedEvents fuel rule window = some [⟨window.startTimestamp, window.endTimestamp⟩] := by
  unfold expectedEvents
  by_cases hzero : rule.maxDeferralSec = 0
  · rw [if_pos hzero]
  · rw [if_neg hzero, if_pos]
    by_contra hle
    exact h ⟨UInt64.pos_iff_ne_zero.2 hzero, UInt64.not_lt.1 hle⟩

/-- The expectations are not a matter of how long the loop may run. -/
theorem expectedEvents_mono {out : List Expectation} (hle : fuel ≤ fuel') (h : expectedEvents fuel rule window = some out) :
    expectedEvents fuel' rule window = some out := by
  by_cases hb : rule.Bounded
  · rw [expectedEvents_of_bounded hb] at h ⊢
    exact buckets_mono hle h
  · rw [expectedEvents_of_not_bounded hb] at h ⊢
    exact h

theorem expectedEvents_unique {out out' : List Expectation} (h : expectedEvents fuel rule window = some out)
    (h' : expectedEvents fuel' rule window = some out') : out = out' := by
  have hmax := expectedEvents_mono (le_max_left fuel fuel') h
  rw [expectedEvents_mono (le_max_right fuel fuel') h'] at hmax
  exact (Option.some.inj hmax).symm

/-- The window can be cut: it is not empty, or, for a bounded rule, whole deferrals lead from its start to its end or past it
within the range of `int64`. -/
def Cuttable (rule : Rule) (window : ComplianceWindow) : Prop :=
  if rule.Bounded then
    ∃ n : ℕ, window.endTimestamp.toInt ≤ window.startTimestamp.toInt + n * rule.deferral ∧
      window.startTimestamp.toInt + n * rule.deferral < 2 ^ 63
  else window.startTimestamp < window.endTimestamp

/-- **Obligation intervals.** Whatever the window and the rule, `expectedEvents` returns intervals that tile the window, none
longer than the deferral of a bounded rule, exactly if the window can be cut. -/
theorem obligations_tile_iff (rule : Rule) (window : ComplianceWindow) :
    (∃ fuel out, expectedEvents fuel rule window = some out ∧
      Tiles window.startTimestamp.toInt window.endTimestamp.toInt (out.map (·.map Int64.toInt)) ∧
      (rule.Bounded → ∀ i ∈ out, i.stop.toInt - i.start.toInt ≤ rule.deferral)) ↔ Cuttable rule window := by
  unfold Cuttable
  by_cases hb : rule.Bounded
  · simp only [expectedEvents_of_bounded hb, if_pos hb, ← hb.step_toInt]
    constructor
    · rintro ⟨fuel, out, h, htiles, -⟩
      refine reaches_of_nonempty hb.step_pos h fun i hi => ?_
      exact Int64.lt_iff_toInt_lt.2 (htiles.nonempty _ (List.mem_map_of_mem hi))
    · rintro ⟨n, hreach⟩
      obtain ⟨out, h⟩ := buckets_of_reaches hb.step_pos hreach
      obtain ⟨htiles, hlength, -⟩ := buckets_tile hb.step_pos hreach h
      exact ⟨n + 1, out, h, htiles, fun _ => hlength⟩
  · simp only [expectedEvents_of_not_bounded hb, if_neg hb]
    constructor
    · rintro ⟨-, out, h, htiles, -⟩
      cases h
      exact Int64.lt_iff_toInt_lt.2 (htiles.nonempty _ List.mem_cons_self)
    · intro hlt
      exact ⟨0, _, rfl, .single (Int64.lt_iff_toInt_lt.1 hlt), fun hb' => absurd hb' hb⟩

namespace Sample

/-- A rule that obliges the operator to one entry of any class in each `sec` seconds. -/
def ruleEvery (sec : UInt64) : Rule where
  eventClass := ""
  description := ""
  severityMin := 0
  severityMax := 0
  assetCriticalityMin := 0
  regulatoryScope := []
  mandatory := true
  requiredFields := []
  maxDeferralSec := sec
  fields := ∅

/-- The last nanosecond of the range of `int64`. -/
def lastWindow : ComplianceWindow := ⟨9223372036854775806, 9223372036854775807, 1, 1⟩

/-- A window without a nanosecond in it. -/
def emptyWindow : ComplianceWindow := ⟨1, 1, 1, 1⟩

/-- The counter stays even, and the one timestamp at or past the end of the window is odd. -/
theorem counter_lt (n : ℕ) : lastWindow.startTimestamp + Int64.ofNat n * (ruleEvery 1).step < lastWindow.endTimestamp := by
  have hstart : lastWindow.startTimestamp.toInt = 9223372036854775806 := by decide
  have hend : lastWindow.endTimestamp.toInt = 9223372036854775807 := by decide
  have hstep : (ruleEvery 1).step.toInt = 1000000000 := by decide
  have hlt := (lastWindow.startTimestamp + Int64.ofNat n * (ruleEvery 1).step).toInt_lt
  have heven : (lastWindow.startTimestamp + Int64.ofNat n * (ruleEvery 1).step).toInt % 2 = 0 := by
    rw [Int64.toInt_add, Int64.toInt_mul, hstart, hstep, Int.bmod_def, Int.bmod_def]
    omega
  rw [Int64.lt_iff_toInt_lt, hend]
  omega

/-- `Validate` accepts a window whose cutting never ends, and one that is answered with an empty interval. -/
theorem windows_not_tiled :
    (lastWindow.validate = .ok () ∧ ¬ ∃ fuel out, expectedEvents fuel (ruleEvery 1) lastWindow = some out) ∧
    emptyWindow.validate = .ok () ∧ (∀ fuel, expectedEvents fuel (ruleEvery 0) emptyWindow = some [⟨1, 1⟩]) ∧
      ¬ Tiles 1 1 ([(⟨1, 1⟩ : Expectation)].map (·.map Int64.toInt)) := by
  refine ⟨⟨by decide, ?_⟩, by decide, fun fuel => expectedEvents_of_not_bounded (by decide) fuel _, fun h => ?_⟩
  · have hb : (ruleEvery 1).Bounded := by decide
    simp only [expectedEvents_of_bounded hb, buckets_ends_iff]
    rintro ⟨n, hn⟩
    exact hn (counter_lt n)
  · exact absurd (h.nonempty _ List.mem_cons_self) (by decide)

end Sample

end Gleipnir
