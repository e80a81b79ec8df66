import Gleipnir.Validation.ComplianceSpec

/-!
# Audits

How the reports of `CheckComplianceMandate` relate to the checks made when an entry is queued, to reports over other windows,
and to the time a mandate is in force.

* `accepted_no_gap`: an entry that `ValidateEntryAgainstMandates` accepts for a mandate closes every interval it falls into
* `audits_compose`: the report over a window is that of its two parts, if whole deferrals lead to the point where it is cut
* `no_gap_out_of_force_iff`: the time a mandate is in force is never looked at. A gap outside of it is avoided exactly if
  entries fill the intervals there all the same
-/

namespace Gleipnir

open Tiling

/-! ## The two enforcement halves -/

/-- An entry is accepted for the mandate it names exactly if the mandate is in force and the entry is complete for each rule of
its class. -/
theorem validateEntryAgainstMandates_ok_iff {resolver : MandateResolver} {entry : ProvenanceEntry} {ref : Hash}
    {mandate : MandateEntry} {timestamp : Int64} (href : entry.mandateRef = some ref)
    (hknown : resolver.getMandateByID ref = some mandate) :
    validateEntryAgainstMandates resolver entry timestamp = .ok () ↔
      mandate.isActiveAt timestamp = true ∧
      ∀ rule ∈ mandate.rules, entryMatchesRule entry rule = true → Complete rule entry := by
  have hlookup : resolver.lookup ref = some mandate := hknown
  simp only [validateEntryAgainstMandates, href, hlookup, Complete]
  cases mandate.isActiveAt timestamp with
  | false => simp
  | true => simp

/-- **The two enforcement halves agree.** For every resolver, every mandate in it and every entry that names the mandate and is
accepted at its own timestamp, every valid window and all entries with this one among them: what `CheckComplianceMandate`
returns is a report, and it has no gap for a mandatory rule of the class of the entry in an interval that the entry falls
into. -/
theorem accepted_no_gap {resolver : MandateResolver} {ref : Hash} {mandate : MandateEntry} {entry : ProvenanceEntry}
    (hknown : resolver.getMandateByID ref = some mandate) (href : entry.mandateRef = some ref)
    (haccepted : validateEntryAgainstMandates resolver entry entry.timestamp = .ok ()) {window : ComplianceWindow}
    (hvalid : window.validate = .ok ()) {entries : List ProvenanceEntry} (hentry : entry ∈ entries) (fuel : ℕ) (now : Int64)
    {result : Except ComplianceError ComplianceReport}
    (hresult : checkComplianceMandate fuel resolver ref window entries now = some result) :
    ∃ report, result = .ok report ∧ ∀ g ∈ report.gaps, ∀ rule, mandate.rules[g.ruleIndex]? = some rule →
      rule.mandatory = true → entryMatchesRule entry rule = true → ¬ g.interval.Holds entry.timestamp := by
  obtain ⟨report, rfl⟩ : ∃ report, result = .ok report := by
    rw [checkComplianceMandate_eq hvalid hknown, Option.map_eq_some_iff] at hresult
    obtain ⟨os, -, rfl⟩ := hresult
    exact ⟨_, rfl⟩
  refine ⟨report, rfl, fun g hg rule hrule _ hmatch hholds => ?_⟩
  have haccount := accounted_of_report hknown hresult
  obtain ⟨rule', hrule', -, -, hopen⟩ := (haccount.gap_iff g.ruleIndex g.interval).1 ⟨g, hg, rfl⟩
  obtain rfl : rule = rule' := Option.some.inj (hrule.symm.trans hrule')
  have hcomplete := ((validateEntryAgainstMandates_ok_iff href hknown).1 haccepted).2 rule (List.mem_of_getElem? hrule) hmatch
  exact hopen ⟨entry, hentry, ⟨hmatch, hholds⟩, hcomplete⟩

namespace Sample

/-- An entry that names the sample mandate. -/
def namedAt (t : Int64) : ProvenanceEntry := { entryAt t with mandateRef := some (Arr.zero 32) }

theorem named_entry_no_gap :
    validateEntryAgainstMandates (resolverOf (ruleEvery 1)) (namedAt 5) 5 = .ok () ∧
    ∃ report, checkComplianceMandate 3 (resolverOf (ruleEvery 1)) (Arr.zero 32) twoSeconds [namedAt 5] 0 = some (.ok report) ∧
      ∀ g ∈ report.gaps, g.ruleIndex = 0 → ¬ g.interval.Holds 5 := by
  have hknown := resolverOf_knows (ruleEvery 1)
  have haccepted : validateEntryAgainstMandates (resolverOf (ruleEvery 1)) (namedAt 5) 5 = .ok () := by decide
  obtain ⟨report, hreport, -⟩ := exists_twoSeconds_report [namedAt 5]
  obtain ⟨_, heq, hno⟩ := accepted_no_gap hknown rfl haccepted (by decide) List.mem_cons_self 3 0 hreport
  cases heq
  refine ⟨haccepted, report, hreport, fun g hg hindex => ?_⟩
  exact hno g hg (ruleEvery 1) (by rw [hindex]; rfl) rfl rfl

end Sample

/-! ## Composition -/

/-- The expectations of the rule in the whole window are those of the two parts, one after the other. -/
def Rule.Splits (rule : Rule) (whole before after : ComplianceWindow) : Prop :=
  ∃ fuel exps₁ exps₂, expectedEvents fuel rule before = some exps₁ ∧ expectedEvents fuel rule after = some exps₂ ∧
    expectedEvents fuel rule whole = some (exps₁ ++ exps₂)

section Composition

variable {whole before after : ComplianceWindow}

/-- A deferral that is no `int64` of nanoseconds divides no distance in a window. -/
theorem bounded_of_dvd {rule : Rule} {window : ComplianceWindow} (hvalid : window.validate = .ok ())
    (hlt : window.startTimestamp < window.endTimestamp) (hpos : 0 < rule.maxDeferralSec)
    (hdvd : rule.deferral ∣ window.endTimestamp.toInt - window.startTimestamp.toInt) : rule.Bounded := by
  by_contra hb
  have hlong := lt_deferral hpos hb hvalid
  rw [Int64.lt_iff_toInt_lt] at hlt
  have hle := Int.le_of_dvd (by omega) hdvd
  omega

/-- Whole deferrals from the start of a window to its end are a number of steps. -/
theorem exists_steps_of_dvd {rule : Rule} {window : ComplianceWindow} (hb : rule.Bounded)
    (hlt : window.startTimestamp < window.endTimestamp)
    (hdvd : rule.deferral ∣ window.endTimestamp.toInt - window.startTimestamp.toInt) :
    ∃ k : ℕ, window.endTimestamp.toInt = window.startTimestamp.toInt + k * rule.step.toInt := by
  obtain ⟨k, hk⟩ := hdvd
  rw [← hb.step_toInt] at hk
  rw [Int64.lt_iff_toInt_lt] at hlt
  have hk0 : 0 < k := by
    by_contra hneg
    have := mul_nonpos_of_nonneg_of_nonpos hb.step_pos.le (not_lt.1 hneg)
    omega
  obtain ⟨k, rfl⟩ := Int.eq_ofNat_of_zero_le hk0.le
  exact ⟨k, by rw [mul_comm]; omega⟩

/-- A window can be cut after whole deferrals. -/
theorem splits_of_dvd {rule : Rule} (hbefore : before.validate = .ok ()) (hafter : after.validate = .ok ())
    (hstart : before.startTimestamp = whole.startTimestamp) (hmid : after.startTimestamp = before.endTimestamp)
    (hstop : after.endTimestamp = whole.endTimestamp) (hlt : before.startTimestamp < before.endTimestamp)
    (hpos : 0 < rule.maxDeferralSec)
    (hdvd : rule.deferral ∣ before.endTimestamp.toInt - before.startTimestamp.toInt) (hcut : Cuttable rule whole) :
    rule.Splits whole before after := by
  have hb := bounded_of_dvd hbefore hlt hpos hdvd
  have hle := Int64.le_iff_toInt_le.1 (ComplianceWindow.validate_ok_iff.1 hafter).2.2.1
  obtain ⟨k, hk⟩ := exists_steps_of_dvd hb hlt hdvd
  rw [← hmid] at hk
  unfold Cuttable at hcut
  rw [if_pos hb, ← hstart, ← hstop, ← hb.step_toInt] at hcut
  obtain ⟨n, hreach⟩ := hcut
  obtain ⟨exps₁, exps₂, h₁, h₂, h⟩ := buckets_split hb.step_pos hk hle (Reaches.drop hb.step_pos hreach hk)
  refine ⟨k + (n - k) + 1, exps₁, exps₂, ?_, ?_, ?_⟩
  · rw [expectedEvents_of_bounded hb, ← hmid]
    exact buckets_mono (by omega) h₁
  · rw [expectedEvents_of_bounded hb]
    exact buckets_mono (by omega) h₂
  · rw [expectedEvents_of_bounded hb, ← hstart, ← hstop]
    exact h

/-- If the expectations of each mandatory rule split, then so do the obligations, but for their order. -/
theorem obligations_split {rules : List (Rule × ℕ)}
    (hsplits : ∀ rule ∈ rules, rule.1.mandatory = true → rule.1.Splits whole before after) :
    ∃ fuel os os₁ os₂, obligations fuel whole rules = some os ∧ obligations fuel before rules = some os₁ ∧
      obligations fuel after rules = some os₂ ∧ os.Perm (os₁ ++ os₂) := by
  induction rules with
  | nil => exact ⟨0, [], [], [], rfl, rfl, rfl, .nil⟩
  | cons rule rules ih =>
    obtain ⟨hrule, hrules⟩ := List.forall_mem_cons.1 hsplits
    obtain ⟨fuel, os, os₁, os₂, h, h₁, h₂, hperm⟩ := ih hrules
    simp only [obligations_cons_eq_some]
    cases hm : rule.1.mandatory with
    | false => exact ⟨fuel, os, os₁, os₂, .inl ⟨rfl, h⟩, .inl ⟨rfl, h₁⟩, .inl ⟨rfl, h₂⟩, hperm⟩
    | true =>
      obtain ⟨fuel', exps₁, exps₂, he₁, he₂, he⟩ := hrule hm
      have hmax := le_max_left fuel fuel'
      have hmax' := le_max_right fuel fuel'
      refine ⟨max fuel fuel', _, _, _,
        .inr ⟨rfl, _, _, expectedEvents_mono hmax' he, obligations_mono hmax h, rfl⟩,
        .inr ⟨rfl, _, _, expectedEvents_mono hmax' he₁, obligations_mono hmax h₁, rfl⟩,
        .inr ⟨rfl, _, _, expectedEvents_mono hmax' he₂, obligations_mono hmax h₂, rfl⟩, ?_⟩
      -- the second part of the rule moves past the first part of the later rules
      rw [List.map_append, List.append_assoc, List.append_assoc]
      refine List.Perm.append_left _ ((hperm.append_left _).trans ?_)
      rw [← List.append_assoc, ← List.append_assoc]
      exact List.perm_append_comm.append_right os₂

end Composition

/-- **Audits compose.** For every mandate whose mandatory rules all have a positive deferral, and a window that is cut at a later
point such that the distance is a multiple of every such deferral and no sum leaves the range of `int64`: whatever the
entries, the reports over the window and over its two parts are returned, the counts of the first are the sums of the other
two, and its gaps are the gaps of the other two. -/
theorem audits_compose {resolver : MandateResolver} {mandateID : Hash} {mandate : MandateEntry}
    {whole before after : ComplianceWindow} (hknown : resolver.getMandateByID mandateID = some mandate)
    (hwhole : whole.validate = .ok ()) (hbefore : before.validate = .ok ()) (hafter : after.validate = .ok ())
    (hstart : before.startTimestamp = whole.startTimestamp) (hmid : after.startTimestamp = before.endTimestamp)
    (hstop : after.endTimestamp = whole.endTimestamp) (hlt : before.startTimestamp < before.endTimestamp)
    (hrules : ∀ rule ∈ mandate.rules, rule.mandatory = true → 0 < rule.maxDeferralSec ∧
      rule.deferral ∣ before.endTimestamp.toInt - before.startTimestamp.toInt ∧ Cuttable rule whole)
    (entries : List ProvenanceEntry) (now now₁ now₂ : Int64) :
    ∃ fuel report report₁ report₂,
      checkComplianceMandate fuel resolver mandateID whole entries now = some (.ok report) ∧
      checkComplianceMandate fuel resolver mandateID before entries now₁ = some (.ok report₁) ∧
      checkComplianceMandate fuel resolver mandateID after entries now₂ = some (.ok report₂) ∧
      report.totalExpected = report₁.totalExpected + report₂.totalExpected ∧
      report.totalAnchored = report₁.totalAnchored + report₂.totalAnchored ∧
      report.gaps.Perm (report₁.gaps ++ report₂.gaps) := by
  have hsplits : ∀ rule ∈ mandate.rules.zipIdx, rule.1.mandatory = true → rule.1.Splits whole before after := by
    intro rule hrule hm
    obtain ⟨hpos, hdvd, hcut⟩ := hrules rule.1 (List.fst_mem_of_mem_zipIdx hrule) hm
    exact splits_of_dvd hbefore hafter hstart hmid hstop hlt hpos hdvd hcut
  obtain ⟨fuel, os, os₁, os₂, h, h₁, h₂, hperm⟩ := obligations_split hsplits
  obtain ⟨report, hreport⟩ := exists_report hwhole hknown h entries now
  obtain ⟨report₁, hreport₁⟩ := exists_report hbefore hknown h₁ entries now₁
  obtain ⟨report₂, hreport₂⟩ := exists_report hafter hknown h₂ entries now₂
  obtain ⟨os', hos, hexpected, hanchored, hgaps⟩ := report_eq hknown hreport
  obtain ⟨os₁', hos₁, hexpected₁, hanchored₁, hgaps₁⟩ := report_eq hknown hreport₁
  obtain ⟨os₂', hos₂, hexpected₂, hanchored₂, hgaps₂⟩ := report_eq hknown hreport₂
  cases h.symm.trans hos
  cases h₁.symm.trans hos₁
  cases h₂.symm.trans hos₂
  refine ⟨fuel, report, report₁, report₂, hreport, hreport₁, hreport₂, ?_, ?_, ?_⟩
  · rw [hexpected, hexpected₁, hexpected₂, hperm.length_eq, List.length_append]
  · rw [hanchored, hanchored₁, hanchored₂, hperm.countP_eq, List.countP_append]
  · rw [hgaps, hgaps₁, hgaps₂, ← List.filterMap_append]
    exact hperm.filterMap _

namespace Sample

def firstSecond : ComplianceWindow := ⟨1, 1000000001, 1, 1⟩

def secondSecond : ComplianceWindow := ⟨1000000001, 2000000001, 1, 1⟩

theorem seconds_compose : ∃ fuel report report₁ report₂,
    checkComplianceMandate fuel (resolverOf (ruleEvery 1)) (Arr.zero 32) twoSeconds [entryAt 5] 0 = some (.ok report) ∧
    checkComplianceMandate fuel (resolverOf (ruleEvery 1)) (Arr.zero 32) firstSecond [entryAt 5] 0 = some (.ok report₁) ∧
    checkComplianceMandate fuel (resolverOf (ruleEvery 1)) (Arr.zero 32) secondSecond [entryAt 5] 0 = some (.ok report₂) ∧
    report.totalExpected = report₁.totalExpected + report₂.totalExpected ∧
    report.totalAnchored = report₁.totalAnchored + report₂.totalAnchored ∧
    report.gaps.Perm (report₁.gaps ++ report₂.gaps) := by
  have hwhole : twoSeconds.validate = .ok () := by decide
  have hfirst : firstSecond.validate = .ok () := by decide
  have hsecond : secondSecond.validate = .ok () := by decide
  refine audits_compose (resolverOf_knows (ruleEvery 1)) hwhole hfirst hsecond rfl rfl rfl (by decide)
    (fun rule hrule _ => ?_) [entryAt 5] 0 0 0
  obtain rfl := List.mem_singleton.1 hrule
  have hb : (ruleEvery 1).Bounded := by decide
  refine ⟨hb.1, by decide, ?_⟩
  unfold Cuttable
  rw [if_pos hb]
  exact ⟨2, by decide⟩

end Sample

/-! ## Mandates that are not in force -/

/-- The interval lies before the mandate comes into force, or after it has expired. -/
def MandateEntry.OutOfForce (m : MandateEntry) (interval : Expectation) : Prop :=
  interval.stop ≤ m.validFrom ∨ (m.validUntil ≠ 0 ∧ m.validUntil < interval.start)

instance (m : MandateEntry) (interval : Expectation) : Decidable (m.OutOfForce interval) :=
  inferInstanceAs (Decidable (_ ∨ (_ ∧ _)))

/-- The interval is one of those into which the window is cut for the rule: the window itself for a rule without a bound, and
otherwise one that starts at a value of the counter, computed modulo `2 ^ 64`, up to which the counter was before the end of
the window. -/
def Rule.Due (rule : Rule) (window : ComplianceWindow) (interval : Expectation) : Prop :=
  if rule.Bounded then
    ∃ n : ℕ, (∀ m ≤ n, window.startTimestamp + Int64.ofNat m * rule.step < window.endTimestamp) ∧
      interval = ⟨window.startTimestamp + Int64.ofNat n * rule.step,
        if window.startTimestamp + Int64.ofNat (n + 1) * rule.step > window.endTimestamp then window.endTimestamp
        else window.startTimestamp + Int64.ofNat (n + 1) * rule.step⟩
  else interval = ⟨window.startTimestamp, window.endTimestamp⟩

/-- The intervals that a rule obliges the operator to fill are those into which the window is cut. -/
theorem obliged_iff_due {rule : Rule} {window : ComplianceWindow} (hends : rule.Ends window) (interval : Expectation) :
    Obliged rule window interval ↔ rule.Due window interval := by
  obtain ⟨fuel, exps, hexps⟩ := expectedEvents_ends_iff.2 hends
  have hobliged : Obliged rule window interval ↔ interval ∈ exps := by
    constructor
    · rintro ⟨fuel', exps', hexps', hin⟩
      rwa [expectedEvents_unique hexps' hexps] at hin
    · intro hin
      exact ⟨fuel, exps, hexps, hin⟩
  rw [hobliged]
  unfold Rule.Due
  by_cases hb : rule.Bounded
  · rw [if_pos hb]
    rw [expectedEvents_of_bounded hb] at hexps
    exact mem_buckets_iff hexps
  · rw [if_neg hb]
    rw [expectedEvents_of_not_bounded hb] at hexps
    cases hexps
    exact List.mem_singleton

/-- What holds of every obligation holds of every rule in every interval into which the window is cut for it. -/
theorem forall_obligations_iff {fuel : ℕ} {window : ComplianceWindow} {mandate : MandateEntry} {os : List Obligation}
    {P : Rule → Expectation → Prop} (hos : obligations fuel window mandate.rules.zipIdx = some os) :
    (∀ o ∈ os, P o.rule o.interval) ↔
      ∀ rule ∈ mandate.rules, rule.mandatory = true → ∀ interval, rule.Due window interval → P rule interval := by
  have hends := obligations_zipIdx_iff.1 ⟨fuel, os, hos⟩
  constructor
  · intro hall rule hrule hmandatory interval hdue
    obtain ⟨index, hindex⟩ := List.mem_iff_getElem?.1 hrule
    have hobliged := (obliged_iff_due (hends rule hrule hmandatory) interval).2 hdue
    exact hall ⟨index, rule, interval⟩ ((mem_obligations_iff hos).2 ⟨hindex, hmandatory, hobliged⟩)
  · intro hall o ho
    obtain ⟨hindex, hmandatory, hobliged⟩ := (mem_obligations_iff hos).1 ho
    have hrule := List.mem_of_getElem? hindex
    exact hall o.rule hrule hmandatory o.interval ((obliged_iff_due (hends o.rule hrule hmandatory) _).1 hobliged)

/-- **Out of force.** For every mandate, valid window and list of entries, a report of `CheckComplianceMandate` has no gap in an
interval outside of the time the mandate is in force exactly if each interval there into which the window is cut for a
mandatory rule has a complete entry of the class of the rule in it. -/
theorem no_gap_out_of_force_iff {fuel : ℕ} {resolver : MandateResolver} {mandateID : Hash} {mandate : MandateEntry}
    {window : ComplianceWindow} {entries : List ProvenanceEntry} {now : Int64} {report : ComplianceReport}
    (hknown : resolver.getMandateByID mandateID = some mandate)
    (hreport : checkComplianceMandate fuel resolver mandateID window entries now = some (.ok report)) :
    (∀ g ∈ report.gaps, ¬ mandate.OutOfForce g.interval) ↔
      ∀ rule ∈ mandate.rules, rule.mandatory = true → ∀ interval, rule.Due window interval → mandate.OutOfForce interval →
        Anchored rule interval entries := by
  have haccount := accounted_of_report hknown hreport
  obtain ⟨os, hos, -⟩ := report_eq hknown hreport
  have hdue : ∀ rule ∈ mandate.rules, rule.mandatory = true → ∀ interval,
      (Obliged rule window interval ↔ rule.Due window interval) := fun rule hrule hm =>
    obliged_iff_due (obligations_zipIdx_iff.1 ⟨fuel, os, hos⟩ rule hrule hm)
  constructor
  · intro hno rule hmem hm interval hint hout
    obtain ⟨index, hrule⟩ := List.mem_iff_getElem?.1 hmem
    by_contra hopen
    obtain ⟨g, hg, hplace⟩ := (haccount.gap_iff index interval).2 ⟨rule, hrule, hm, (hdue rule hmem hm _).2 hint, hopen⟩
    have hinterval : g.interval = interval := congrArg Prod.snd hplace
    exact hno g hg (by rwa [hinterval])
  · intro hall g hg hout
    obtain ⟨rule, hrule, hm, hobliged, hopen⟩ := (haccount.gap_iff g.ruleIndex g.interval).1 ⟨g, hg, rfl⟩
    have hmem := List.mem_of_getElem? hrule
    exact hopen (hall rule hmem hm _ ((hdue rule hmem hm _).1 hobliged) hout)

namespace Sample

/-- A mandate that comes into force after the two seconds. -/
def laterMandate : MandateEntry := { mandateOf (ruleEvery 0) with validFrom := 5000000000 }

def laterResolver : MandateResolver := (∅ : MandateResolver).insert (Arr.zero 32) laterMandate

theorem laterResolver_knows : laterResolver.getMandateByID (Arr.zero 32) = some laterMandate := AList.lookup_insert _

/-- An entry that comes before the mandate keeps the report clean. -/
theorem early_entry_no_gap : ∃ report,
    checkComplianceMandate 1 laterResolver (Arr.zero 32) twoSeconds [entryAt 5] 0 = some (.ok report) ∧
    ∀ g ∈ report.gaps, ¬ laterMandate.OutOfForce g.interval := by
  have hos : obligations 1 twoSeconds laterMandate.rules.zipIdx = some [⟨0, ruleEvery 0, ⟨1, 2000000001⟩⟩] := rfl
  obtain ⟨report, hreport⟩ := exists_report (by decide) laterResolver_knows hos [entryAt 5] 0
  refine ⟨report, hreport, (no_gap_out_of_force_iff laterResolver_knows hreport).2 fun rule hrule _ interval hdue _ => ?_⟩
  obtain rfl := List.mem_singleton.1 hrule
  have hb : ¬ (ruleEvery 0).Bounded := by decide
  unfold Rule.Due at hdue
  rw [if_neg hb] at hdue
  subst hdue
  exact ⟨entryAt 5, List.mem_cons_self, ⟨rfl, by decide⟩, fun field hfield => by cases hfield⟩

/-- A window before the mandate without an entry has a gap. -/
theorem early_window_gap : twoSeconds.validate = .ok () ∧ laterResolver.getMandateByID (Arr.zero 32) = some laterMandate ∧
    ∃ report, checkComplianceMandate 1 laterResolver (Arr.zero 32) twoSeconds [] 0 = some (.ok report) ∧
      ∃ g ∈ report.gaps, g.windowEnd < laterMandate.validFrom ∧ laterMandate.OutOfForce g.interval := by
  have hos : obligations 1 twoSeconds laterMandate.rules.zipIdx = some [⟨0, ruleEvery 0, ⟨1, 2000000001⟩⟩] := rfl
  obtain ⟨report, hreport⟩ := exists_report (by decide) laterResolver_knows hos [] 0
  obtain ⟨os, hos', -, -, hgaps⟩ := report_eq laterResolver_knows hreport
  cases hos.symm.trans hos'
  refine ⟨by decide, laterResolver_knows, report, hreport, ?_⟩
  rw [hgaps]
  decide

end Sample

end Gleipnir
