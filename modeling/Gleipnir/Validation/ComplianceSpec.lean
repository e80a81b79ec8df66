import Gleipnir.Validation.Compliance

/-!
# Compliance reports

What a report of `CheckComplianceMandate` says. `checkComplianceMandate_eq`: it is a function of the obligations, one for each
interval of each mandatory rule, and of what the entries offer for each of them.

* `accounted_iff`: the counts, the gaps and their statuses are those of the obligations, whatever the order of the entries,
  and more entries add no gap; a report is returned exactly if the bucket loop of every mandatory rule comes to its end
* `clean_iff`: a rule without a gap kept its deferral in every interval of that length exactly if it kept it across the
  borders of its buckets
* `mandateRef_ignored`: what the entries say about mandates changes nothing
-/

namespace Gleipnir

open Tiling

/-! ## Entries and expectations -/

/-- The entry is of the class of the rule and falls into the interval. -/
def Answers (rule : Rule) (exp : Expectation) (entry : ProvenanceEntry) : Prop :=
  entryMatchesRule entry rule = true ∧ exp.Holds entry.timestamp

/-- The entry carries all fields that the rule requires. -/
def Complete (rule : Rule) (entry : ProvenanceEntry) : Prop :=
  ∀ field ∈ rule.requiredFields, entryHasField entry field = true

/-- Some entry of the class of the rule in the interval is complete. -/
def Anchored (rule : Rule) (exp : Expectation) (entries : List ProvenanceEntry) : Prop :=
  ∃ entry ∈ entries, Answers rule exp entry ∧ Complete rule entry

theorem missingFields_isEmpty {rule : Rule} {entry : ProvenanceEntry} :
    (missingFields rule entry).isEmpty = true ↔ Complete rule entry := by
  simp [missingFields, Complete]

section Search

variable {rule : Rule} {exp : Expectation} {found : Option (ProvenanceEntry × List String)} {entry : ProvenanceEntry}
  {entries : List ProvenanceEntry}

/-- What the search takes for outside of the interval. -/
theorem outside_iff {t : Int64} : (decide (t < exp.start) || decide (t ≥ exp.stop)) = true ↔ ¬ exp.Holds t := by
  unfold Span.Holds
  rw [Bool.or_eq_true, decide_eq_true_iff, decide_eq_true_iff, ge_iff_le, Int64.lt_iff_toInt_lt, Int64.le_iff_toInt_le,
    Int64.le_iff_toInt_le, Int64.lt_iff_toInt_lt]
  omega

/-- The search passes over an entry that does not answer. -/
theorem findFrom_of_not_answers (h : ¬ Answers rule exp entry) :
    findFrom rule exp found (entry :: entries) = findFrom rule exp found entries := by
  rw [findFrom]
  split
  · rfl
  · rename_i hmatch
    have hout : ¬ exp.Holds entry.timestamp := fun hin => h ⟨by simpa using hmatch, hin⟩
    rw [if_pos (outside_iff.2 hout)]

theorem findFrom_of_answers (h : Answers rule exp entry) :
    findFrom rule exp found (entry :: entries) = if (missingFields rule entry).isEmpty then some (entry, [])
      else findFrom rule exp (found.or (some (entry, missingFields rule entry))) entries := by
  obtain ⟨hmatch, hin⟩ := h
  rw [findFrom, if_neg (by simp [hmatch]), if_neg fun hout => outside_iff.1 hout hin]

/-- The search finds nothing exactly if nothing answers. -/
theorem findFrom_eq_none :
    findFrom rule exp found entries = none ↔ found = none ∧ ∀ entry ∈ entries, ¬ Answers rule exp entry := by
  induction entries generalizing found with
  | nil => simp [findFrom]
  | cons entry entries ih =>
    by_cases h : Answers rule exp entry
    · rw [findFrom_of_answers h]
      split
      · simp [h]
      · rw [ih]
        cases found <;> simp [h]
    · rw [findFrom_of_not_answers h, ih]
      simp [h]

/-- The search ends at a complete entry exactly if there is one. -/
theorem findFrom_any (hfound : found.any (fun f => f.2.isEmpty) = false) :
    (findFrom rule exp found entries).any (fun f => f.2.isEmpty) = true ↔ Anchored rule exp entries := by
  unfold Anchored
  induction entries generalizing found with
  | nil => simp [findFrom, hfound]
  | cons entry entries ih =>
    by_cases h : Answers rule exp entry
    · rw [findFrom_of_answers h]
      split
      · rename_i hcomplete
        simpa using .inl ⟨h, missingFields_isEmpty.1 hcomplete⟩
      · rename_i hincomplete
        have hnot : ¬ Complete rule entry := fun hc => hincomplete (missingFields_isEmpty.2 hc)
        rw [ih]
        · simp [hnot]
        · cases found with
          | none => simpa using hincomplete
          | some f => exact hfound
    · rw [findFrom_of_not_answers h, ih hfound]
      simp [h]

theorem findMatchingEntry_eq_none :
    findMatchingEntry rule exp entries = none ↔ ∀ entry ∈ entries, ¬ Answers rule exp entry := by
  rw [findMatchingEntry, findFrom_eq_none, eq_self, true_and]

theorem findMatchingEntry_any :
    (findMatchingEntry rule exp entries).any (fun f => f.2.isEmpty) = true ↔ Anchored rule exp entries :=
  findFrom_any rfl

end Search

/-! ## Obligations -/

/-- An interval that a mandatory rule obliges the operator to fill. -/
structure Obligation where
  index : ℕ
  rule : Rule
  interval : Expectation

/-- The obligations of a list of rules with their indices. -/
def obligations (fuel : ℕ) (window : ComplianceWindow) : List (Rule × ℕ) → Option (List Obligation)
  | [] => some []
  | rule :: rules =>
    if !rule.1.mandatory then obligations fuel window rules
    else (expectedEvents fuel rule.1 window).bind fun exps =>
      (obligations fuel window rules).map (exps.map (Obligation.mk rule.2 rule.1) ++ ·)

/-- What the report says about an obligation: nothing if it is met. -/
def Obligation.gap (mandateID : Hash) (entries : List ProvenanceEntry) (o : Obligation) : Option ComplianceGap :=
  let matched := findMatchingEntry o.rule o.interval entries
  if matched.any fun found => found.2.isEmpty then none else some (gapFor mandateID o.index o.rule o.interval matched)

/-- A report with the results for `os` added. -/
def ComplianceReport.tally (mandateID : Hash) (entries : List ProvenanceEntry) (report : ComplianceReport)
    (os : List Obligation) : ComplianceReport :=
  { report with
    totalExpected := report.totalExpected + os.length
    totalAnchored := report.totalAnchored + os.countP fun o => (o.gap mandateID entries).isNone
    gaps := report.gaps ++ os.filterMap (Obligation.gap mandateID entries) }

section Report

variable {fuel : ℕ} {mandateID : Hash} {window : ComplianceWindow} {entries entries' : List ProvenanceEntry}

theorem checkExpectation_eq (o : Obligation) (report : ComplianceReport) :
    checkExpectation mandateID entries o.index o.rule report o.interval = report.tally mandateID entries [o] := by
  cases hany : (findMatchingEntry o.rule o.interval entries).any fun found => found.2.isEmpty with
  | true => simp [checkExpectation, ComplianceReport.tally, Obligation.gap, hany]
  | false => simp [checkExpectation, ComplianceReport.tally, Obligation.gap, hany]

theorem tally_append (report : ComplianceReport) (os os' : List Obligation) :
    (report.tally mandateID entries os).tally mandateID entries os' = report.tally mandateID entries (os ++ os') := by
  simp [ComplianceReport.tally, Nat.add_assoc]

/-- The inner loop. -/
theorem foldl_checkExpectation (index : ℕ) (rule : Rule) (exps : List Expectation) (report : ComplianceReport) :
    exps.foldl (checkExpectation mandateID entries index rule) report =
      report.tally mandateID entries (exps.map (Obligation.mk index rule)) := by
  induction exps generalizing report with
  | nil => simp [ComplianceReport.tally]
  | cons exp exps ih =>
    rw [List.foldl_cons, ih, checkExpectation_eq ⟨index, rule, exp⟩ report, tally_append]
    rfl

/-- The outer loop. -/
theorem foldlM_checkRule (rules : List (Rule × ℕ)) (report : ComplianceReport) :
    rules.foldlM (checkRule fuel mandateID window entries) report =
      (obligations fuel window rules).map (report.tally mandateID entries) := by
  induction rules generalizing report with
  | nil => simp [obligations, ComplianceReport.tally]
  | cons rule rules ih =>
    rw [List.foldlM_cons, checkRule, obligations]
    cases hm : rule.1.mandatory with
    | false => simpa using ih report
    | true =>
      cases he : expectedEvents fuel rule.1 window with
      | none => rfl
      | some exps =>
        simp only [Bool.not_true, Bool.false_eq_true, if_false, Option.map_some, Option.bind_some, Option.map_map,
          foldl_checkExpectation]
        change List.foldlM _ _ rules = _
        rw [ih]
        congr 1
        funext os
        exact tally_append report _ os

/-- **A report** is the tally of the obligations. -/
theorem checkComplianceMandate_eq {resolver : MandateResolver} {mandate : MandateEntry} (hvalid : window.validate = .ok ())
    (hknown : resolver.getMandateByID mandateID = some mandate) (now : Int64) :
    checkComplianceMandate fuel resolver mandateID window entries now =
      (obligations fuel window mandate.rules.zipIdx).map fun os =>
        .ok (ComplianceReport.tally mandateID entries { mandateID, mandateLabel, window, timestamp := now } os).rated := by
  rw [checkComplianceMandate, hvalid, hknown]
  dsimp only
  rw [foldlM_checkRule, Option.map_map]
  rfl

/-- A report is only returned for a valid window and a known mandate. -/
theorem checkComplianceMandate_ok {resolver : MandateResolver} {now : Int64} {report : ComplianceReport}
    (h : checkComplianceMandate fuel resolver mandateID window entries now = some (.ok report)) :
    window.validate = .ok () ∧ ∃ mandate, resolver.getMandateByID mandateID = some mandate := by
  unfold checkComplianceMandate at h
  cases hvalid : window.validate with
  | error err => simp [hvalid] at h
  | ok u =>
    cases hknown : resolver.getMandateByID mandateID with
    | none => simp [hvalid, hknown] at h
    | some mandate => exact ⟨rfl, mandate, rfl⟩

end Report

/-! ## The list of obligations -/

/-- The interval is one that the rule obliges the operator to fill in the window. -/
def Obliged (rule : Rule) (window : ComplianceWindow) (interval : Expectation) : Prop :=
  ∃ fuel exps, expectedEvents fuel rule window = some exps ∧ interval ∈ exps

/-- The bucket loop of the rule comes to its end: the rule has none, or the counter of the loop, which is computed modulo
`2 ^ 64`, comes to the end of the window or past it. -/
def Rule.Ends (rule : Rule) (window : ComplianceWindow) : Prop :=
  rule.Bounded → ∃ n : ℕ, ¬ window.startTimestamp + Int64.ofNat n * rule.step < window.endTimestamp

theorem expectedEvents_ends_iff {rule : Rule} {window : ComplianceWindow} :
    (∃ fuel out, expectedEvents fuel rule window = some out) ↔ rule.Ends window := by
  unfold Rule.Ends
  by_cases hb : rule.Bounded
  · simp only [expectedEvents_of_bounded hb, buckets_ends_iff, hb, forall_const]
  · simp only [expectedEvents_of_not_bounded hb, hb, false_implies, iff_true]
    exact ⟨0, _, rfl⟩

section Obligations

variable {fuel : ℕ} {window : ComplianceWindow} {rule : Rule × ℕ} {rules : List (Rule × ℕ)} {os : List Obligation}

/-- The ways in which the obligations are found. -/
theorem obligations_cons_eq_some : obligations fuel window (rule :: rules) = some os ↔
    (rule.1.mandatory = false ∧ obligations fuel window rules = some os) ∨
    (rule.1.mandatory = true ∧ ∃ exps later, expectedEvents fuel rule.1 window = some exps ∧
      obligations fuel window rules = some later ∧ os = exps.map (Obligation.mk rule.2 rule.1) ++ later) := by
  rw [obligations]
  cases hm : rule.1.mandatory with
  | false => simp
  | true => simp [Option.bind_eq_some_iff, eq_comm (a := os)]

theorem obligations_mono {fuel' : ℕ} (hle : fuel ≤ fuel') (h : obligations fuel window rules = some os) :
    obligations fuel' window rules = some os := by
  induction rules generalizing os with
  | nil => exact h
  | cons rule rules ih =>
    rw [obligations_cons_eq_some] at h ⊢
    rcases h with ⟨hm, h⟩ | ⟨hm, exps, later, hexps, hlater, rfl⟩
    · exact .inl ⟨hm, ih h⟩
    · exact .inr ⟨hm, exps, later, expectedEvents_mono hle hexps, ih hlater, rfl⟩

/-- The obligations are found exactly if the loop of every mandatory rule comes to its end. -/
theorem obligations_ends_iff : (∃ fuel os, obligations fuel window rules = some os) ↔
    ∀ rule ∈ rules, rule.1.mandatory = true → rule.1.Ends window := by
  induction rules with
  | nil => exact ⟨fun _ => by simp, fun _ => ⟨0, [], rfl⟩⟩
  | cons rule rules ih =>
    rw [List.forall_mem_cons, ← ih, ← expectedEvents_ends_iff]
    simp only [obligations_cons_eq_some]
    constructor
    · rintro ⟨fuel, os, ⟨hm, h⟩ | ⟨-, exps, later, hexps, hlater, -⟩⟩
      · exact ⟨fun hm' => by simp [hm] at hm', fuel, os, h⟩
      · exact ⟨fun _ => ⟨fuel, exps, hexps⟩, fuel, later, hlater⟩
    · rintro ⟨hrule, fuel, later, hlater⟩
      cases hm : rule.1.mandatory with
      | false => exact ⟨fuel, later, .inl ⟨rfl, hlater⟩⟩
      | true =>
        obtain ⟨fuel', exps, hexps⟩ := hrule hm
        exact ⟨max fuel fuel', _, .inr ⟨rfl, exps, later, expectedEvents_mono (le_max_right _ _) hexps,
          obligations_mono (le_max_left _ _) hlater, rfl⟩⟩

/-- The same for the rules of a mandate. -/
theorem obligations_zipIdx_iff {rules : List Rule} : (∃ fuel os, obligations fuel window rules.zipIdx = some os) ↔
    ∀ rule ∈ rules, rule.mandatory = true → rule.Ends window := by
  rw [obligations_ends_iff]
  constructor
  · intro h rule hrule
    obtain ⟨i, hi⟩ := List.mem_iff_getElem?.1 hrule
    exact h (rule, i) (List.mem_zipIdx_iff_getElem?.2 hi)
  · intro h rule hrule
    exact h rule.1 (List.fst_mem_of_mem_zipIdx hrule)

/-- The obligations are those of the mandatory rules. -/
theorem mem_obligations (h : obligations fuel window rules = some os) {o : Obligation} :
    o ∈ os ↔ (o.rule, o.index) ∈ rules ∧ o.rule.mandatory = true ∧ Obliged o.rule window o.interval := by
  induction rules generalizing os with
  | nil => cases h; simp
  | cons rule rules ih =>
    rcases obligations_cons_eq_some.1 h with ⟨hm, h⟩ | ⟨hm, exps, later, hexps, hlater, rfl⟩
    · rw [ih h, List.mem_cons]
      refine and_congr_left fun hobliged => (or_iff_right ?_).symm
      rintro rfl
      simp [hobliged.1] at hm
    · rw [List.mem_append, ih hlater, List.mem_cons, or_and_right]
      refine or_congr_left ?_
      constructor
      · intro ho
        obtain ⟨exp, hexp, rfl⟩ := List.mem_map.1 ho
        exact ⟨rfl, hm, fuel, exps, hexps, hexp⟩
      · rintro ⟨rfl, -, fuel', exps', hexps', hin⟩
        rw [expectedEvents_unique hexps' hexps] at hin
        exact List.mem_map.2 ⟨o.interval, hin, rfl⟩

end Obligations

/-! ## Gaps -/

/-- The interval of a gap. -/
def ComplianceGap.interval (g : ComplianceGap) : Expectation := ⟨g.windowStart, g.windowEnd⟩

/-- Where a gap is: its rule and its interval. -/
def ComplianceGap.place (g : ComplianceGap) : ℕ × Expectation := (g.ruleIndex, g.interval)

/-- Where a gap is, and its status. -/
def ComplianceGap.triple (g : ComplianceGap) : ℕ × Expectation × ComplianceStatus := (g.ruleIndex, g.interval, g.status)

namespace Obligation

variable {mandateID : Hash} {entries entries' : List ProvenanceEntry} {o : Obligation} {g : ComplianceGap}

/-- An obligation is met exactly if an entry anchors it. -/
theorem gap_eq_none : o.gap mandateID entries = none ↔ Anchored o.rule o.interval entries := by
  rw [← findMatchingEntry_any, gap]
  split <;> simp_all

/-- What the gap of an obligation says. -/
theorem gap_eq_some (h : o.gap mandateID entries = some g) : g.place = (o.index, o.interval) ∧
    (g.status = .missing ↔ ∀ entry ∈ entries, ¬ Answers o.rule o.interval entry) := by
  rw [← findMatchingEntry_eq_none]
  unfold gap at h
  dsimp only at h
  split at h
  · cases h
  · obtain rfl := Option.some.inj h
    cases findMatchingEntry o.rule o.interval entries with
    | none => exact ⟨rfl, by simp [gapFor]⟩
    | some found => exact ⟨rfl, by simp [gapFor]⟩

/-- The place and the status of a gap only depend on which entries there are. -/
theorem triple_congr (hmem : ∀ entry, entry ∈ entries ↔ entry ∈ entries') :
    (o.gap mandateID entries).map ComplianceGap.triple = (o.gap mandateID entries').map ComplianceGap.triple := by
  have hanchored : Anchored o.rule o.interval entries ↔ Anchored o.rule o.interval entries' := by
    simp only [Anchored, hmem]
  cases h : o.gap mandateID entries with
  | none => rw [gap_eq_none.2 (hanchored.1 (gap_eq_none.1 h))]
  | some g =>
    cases h' : o.gap mandateID entries' with
    | none =>
      rw [gap_eq_none.2 (hanchored.2 (gap_eq_none.1 h'))] at h
      cases h
    | some g' =>
      obtain ⟨hplace, hstatus⟩ := gap_eq_some h
      obtain ⟨hplace', hstatus'⟩ := gap_eq_some h'
      have hsame : g.status = .missing ↔ g'.status = .missing := by
        rw [hstatus, hstatus']
        simp only [hmem]
      have heq : g.status = g'.status := by
        cases hs : g.status <;> cases hs' : g'.status <;> simp_all
      rw [ComplianceGap.place, Prod.mk.injEq] at hplace hplace'
      simp [ComplianceGap.triple, heq, hplace, hplace']

end Obligation

/-! ## The accounts of a report -/

@[simp] theorem ComplianceReport.totalExpected_rated (report : ComplianceReport) :
    report.rated.totalExpected = report.totalExpected := by
  unfold rated
  split <;> rfl

@[simp] theorem ComplianceReport.totalAnchored_rated (report : ComplianceReport) :
    report.rated.totalAnchored = report.totalAnchored := by
  unfold rated
  split <;> rfl

@[simp] theorem ComplianceReport.gaps_rated (report : ComplianceReport) : report.rated.gaps = report.gaps := by
  unfold rated
  split <;> rfl

section Accounts

variable {fuel : ℕ} {resolver : MandateResolver} {mandateID : Hash} {mandate : MandateEntry} {window : ComplianceWindow}
  {entries : List ProvenanceEntry} {now : Int64} {report : ComplianceReport} {os : List Obligation}

/-- A report that was returned has the counts and the gaps of the obligations. -/
theorem report_eq (hknown : resolver.getMandateByID mandateID = some mandate)
    (h : checkComplianceMandate fuel resolver mandateID window entries now = some (.ok report)) :
    ∃ os, obligations fuel window mandate.rules.zipIdx = some os ∧ report.totalExpected = os.length ∧
      report.totalAnchored = os.countP (fun o => (o.gap mandateID entries).isNone) ∧
      report.gaps = os.filterMap (Obligation.gap mandateID entries) := by
  rw [checkComplianceMandate_eq (checkComplianceMandate_ok h).1 hknown, Option.map_eq_some_iff] at h
  obtain ⟨os, hos, heq⟩ := h
  cases heq
  exact ⟨os, hos, by simp [ComplianceReport.tally], by simp [ComplianceReport.tally], by simp [ComplianceReport.tally]⟩

/-- Whether a report is returned is not a matter of the entries. -/
theorem exists_report (hvalid : window.validate = .ok ()) (hknown : resolver.getMandateByID mandateID = some mandate)
    (hos : obligations fuel window mandate.rules.zipIdx = some os) (entries : List ProvenanceEntry) (now : Int64) :
    ∃ report, checkComplianceMandate fuel resolver mandateID window entries now = some (.ok report) :=
  ⟨_, by rw [checkComplianceMandate_eq hvalid hknown, hos]; rfl⟩

/-- Each obligation is met or has its gap. -/
theorem length_eq_countP_add (os : List Obligation) :
    os.length = os.countP (fun o => (o.gap mandateID entries).isNone) +
      (os.filterMap (Obligation.gap mandateID entries)).length := by
  induction os with
  | nil => rfl
  | cons o os ih =>
    cases h : o.gap mandateID entries with
    | none => simp [h, ih]; omega
    | some g => simp [h, ih]; omega

/-- More entries leave a gap where it was or close it. -/
theorem places_sublist (os : List Obligation) (more : List ProvenanceEntry) :
    ((os.filterMap (Obligation.gap mandateID (entries ++ more))).map ComplianceGap.place).Sublist
      ((os.filterMap (Obligation.gap mandateID entries)).map ComplianceGap.place) := by
  induction os with
  | nil => exact .slnil
  | cons o os ih =>
    cases h : o.gap mandateID entries with
    | none =>
      obtain ⟨entry, hentry, hanchors⟩ := Obligation.gap_eq_none.1 h
      have hstill : o.gap mandateID (entries ++ more) = none :=
        Obligation.gap_eq_none.2 ⟨entry, List.mem_append_left _ hentry, hanchors⟩
      rwa [List.filterMap_cons_none hstill, List.filterMap_cons_none h]
    | some g =>
      rw [List.filterMap_cons_some h]
      cases h' : o.gap mandateID (entries ++ more) with
      | none =>
        rw [List.filterMap_cons_none h']
        exact ih.cons _
      | some g' =>
        rw [List.filterMap_cons_some h', List.map_cons, List.map_cons, (Obligation.gap_eq_some h).1,
          (Obligation.gap_eq_some h').1]
        exact ih.cons_cons _

/-- The obligations of a mandate. -/
theorem mem_obligations_iff (hos : obligations fuel window mandate.rules.zipIdx = some os) {o : Obligation} :
    o ∈ os ↔ mandate.rules[o.index]? = some o.rule ∧ o.rule.mandatory = true ∧ Obliged o.rule window o.interval := by
  rw [mem_obligations hos, List.mem_zipIdx_iff_getElem?]

/-- There is a gap for each obligation that no complete entry meets. -/
theorem exists_gap_iff (hos : obligations fuel window mandate.rules.zipIdx = some os) (index : ℕ) (interval : Expectation) :
    (∃ g ∈ os.filterMap (Obligation.gap mandateID entries), g.place = (index, interval)) ↔
    ∃ rule, mandate.rules[index]? = some rule ∧ rule.mandatory = true ∧ Obliged rule window interval ∧
      ¬ Anchored rule interval entries := by
  constructor
  · rintro ⟨g, hg, hplace⟩
    obtain ⟨o, ho, hog⟩ := List.mem_filterMap.1 hg
    rw [(Obligation.gap_eq_some hog).1, Prod.mk.injEq] at hplace
    obtain ⟨rfl, rfl⟩ := hplace
    obtain ⟨hrule, hmand, hobliged⟩ := (mem_obligations_iff hos).1 ho
    refine ⟨o.rule, hrule, hmand, hobliged, fun hanch => ?_⟩
    rw [Obligation.gap_eq_none.2 hanch] at hog
    cases hog
  · rintro ⟨rule, hrule, hmand, hobliged, hnot⟩
    cases hog : Obligation.gap mandateID entries ⟨index, rule, interval⟩ with
    | none => exact absurd (Obligation.gap_eq_none.1 hog) hnot
    | some g =>
      have ho := (mem_obligations_iff hos (o := ⟨index, rule, interval⟩)).2 ⟨hrule, hmand, hobliged⟩
      exact ⟨g, List.mem_filterMap.2 ⟨_, ho, hog⟩, (Obligation.gap_eq_some hog).1⟩

/-- Its status is that of the entries of the class in the interval. -/
theorem missing_iff_of_mem (hos : obligations fuel window mandate.rules.zipIdx = some os) (g : ComplianceGap)
    (hg : g ∈ os.filterMap (Obligation.gap mandateID entries)) (rule : Rule)
    (hrule : mandate.rules[g.ruleIndex]? = some rule) :
    g.status = .missing ↔ ∀ entry ∈ entries, ¬ Answers rule g.interval entry := by
  obtain ⟨o, ho, hog⟩ := List.mem_filterMap.1 hg
  obtain ⟨hplace, hstatus⟩ := Obligation.gap_eq_some hog
  rw [ComplianceGap.place, Prod.mk.injEq] at hplace
  rw [hplace.1, ((mem_obligations_iff hos).1 ho).1] at hrule
  cases hrule
  rw [hstatus, hplace.2]

/-- The counts and the gaps only depend on which entries there are. -/
theorem gaps_congr (os : List Obligation) {entries' : List ProvenanceEntry} (hmem : ∀ entry, entry ∈ entries' ↔ entry ∈ entries) :
    os.countP (fun o => (o.gap mandateID entries').isNone) = os.countP (fun o => (o.gap mandateID entries).isNone) ∧
    (os.filterMap (Obligation.gap mandateID entries')).map ComplianceGap.triple =
      (os.filterMap (Obligation.gap mandateID entries)).map ComplianceGap.triple := by
  have htriple : ∀ o : Obligation, (o.gap mandateID entries').map ComplianceGap.triple =
      (o.gap mandateID entries).map ComplianceGap.triple := fun o => Obligation.triple_congr hmem
  constructor
  · refine List.countP_congr fun o _ => ?_
    rw [← Option.isNone_map (f := ComplianceGap.triple), htriple, Option.isNone_map]
  · rw [List.map_filterMap, List.map_filterMap]
    exact List.filterMap_congr fun o _ => htriple o

/-- The report keeps its accounts: the counts add up, the gaps are those of the obligations that no complete entry meets, with
the status that the entries give them, and the other runs on entries in another order or on more entries agree with it. -/
structure Accounted (fuel : ℕ) (resolver : MandateResolver) (mandateID : Hash) (mandate : MandateEntry)
    (window : ComplianceWindow) (entries : List ProvenanceEntry) (report : ComplianceReport) : Prop where
  total : report.totalExpected = report.totalAnchored + report.gaps.length
  gap_iff : ∀ index interval, (∃ g ∈ report.gaps, g.place = (index, interval)) ↔
    ∃ rule, mandate.rules[index]? = some rule ∧ rule.mandatory = true ∧ Obliged rule window interval ∧
      ¬ Anchored rule interval entries
  missing_iff : ∀ g ∈ report.gaps, ∀ rule, mandate.rules[g.ruleIndex]? = some rule →
    (g.status = .missing ↔ ∀ entry ∈ entries, ¬ Answers rule g.interval entry)
  permuted : ∀ entries' now', entries.Perm entries' → ∃ report',
    checkComplianceMandate fuel resolver mandateID window entries' now' = some (.ok report') ∧
    report'.totalExpected = report.totalExpected ∧ report'.totalAnchored = report.totalAnchored ∧
    report'.gaps.map ComplianceGap.triple = report.gaps.map ComplianceGap.triple
  appended : ∀ more now', ∃ report',
    checkComplianceMandate fuel resolver mandateID window (entries ++ more) now' = some (.ok report') ∧
    (report'.gaps.map ComplianceGap.place).Sublist (report.gaps.map ComplianceGap.place)

/-- Every report that is returned keeps its accounts. -/
theorem accounted_of_report (hknown : resolver.getMandateByID mandateID = some mandate)
    (h : checkComplianceMandate fuel resolver mandateID window entries now = some (.ok report)) :
    Accounted fuel resolver mandateID mandate window entries report := by
  have hvalid := (checkComplianceMandate_ok h).1
  obtain ⟨os, hos, hexpected, hanchored, hgaps⟩ := report_eq hknown h
  -- another run of the check has the same obligations
  have hrun : ∀ entries' now', ∃ report',
      checkComplianceMandate fuel resolver mandateID window entries' now' = some (.ok report') ∧
      report'.totalExpected = os.length ∧ report'.totalAnchored = os.countP (fun o => (o.gap mandateID entries').isNone) ∧
      report'.gaps = os.filterMap (Obligation.gap mandateID entries') := by
    intro entries' now'
    obtain ⟨report', h'⟩ := exists_report hvalid hknown hos entries' now'
    obtain ⟨os', hos', hfields⟩ := report_eq hknown h'
    obtain rfl : os = os' := Option.some.inj (hos.symm.trans hos')
    exact ⟨report', h', hfields⟩
  constructor
  case total =>
    rw [hexpected, hanchored, hgaps]
    exact length_eq_countP_add os
  case gap_iff =>
    rw [hgaps]
    exact exists_gap_iff hos
  case missing_iff =>
    rw [hgaps]
    exact missing_iff_of_mem hos
  case permuted =>
    intro entries' now' hperm
    obtain ⟨report', h', hexpected', hanchored', hgaps'⟩ := hrun entries' now'
    obtain ⟨hcount, htriples⟩ := gaps_congr os fun _ => hperm.symm.mem_iff
    exact ⟨report', h', hexpected'.trans hexpected.symm, by rw [hanchored, hanchored', hcount], by rw [hgaps, hgaps', htriples]⟩
  case appended =>
    intro more now'
    obtain ⟨report', h', -, -, hgaps'⟩ := hrun (entries ++ more) now'
    exact ⟨report', h', by rw [hgaps, hgaps']; exact places_sublist os more⟩

/-- **Compliance accounting.** For a mandate, a valid window and any entries, `CheckComplianceMandate` returns a report that
keeps its accounts exactly if the bucket loop of every mandatory rule comes to its end. -/
theorem accounted_iff (hknown : resolver.getMandateByID mandateID = some mandate) (hvalid : window.validate = .ok ())
    (entries : List ProvenanceEntry) (now : Int64) :
    (∃ fuel report, checkComplianceMandate fuel resolver mandateID window entries now = some (.ok report) ∧
      Accounted fuel resolver mandateID mandate window entries report) ↔
    ∀ rule ∈ mandate.rules, rule.mandatory = true → rule.Ends window := by
  rw [← obligations_zipIdx_iff]
  constructor
  · rintro ⟨fuel, report, h, -⟩
    obtain ⟨os, hos, -⟩ := report_eq hknown h
    exact ⟨fuel, os, hos⟩
  · rintro ⟨fuel, os, hos⟩
    obtain ⟨report, h⟩ := exists_report hvalid hknown hos entries now
    exact ⟨fuel, report, h, accounted_of_report hknown h⟩

end Accounts

namespace Sample

/-- A mandate with one rule. -/
def mandateOf (rule : Rule) : MandateEntry where
  id := Arr.zero 32
  authority := Arr.zero 16
  version := 1
  prevVersion := Arr.zero 32
  validFrom := 0
  validUntil := 0
  supersedes := Arr.zero 32
  rules := [rule]
  policyHash := Arr.zero 32
  policyURI := []
  signature := []

/-- A resolver that knows it. -/
def resolverOf (rule : Rule) : MandateResolver := (∅ : MandateResolver).insert (Arr.zero 32) (mandateOf rule)

theorem resolverOf_knows (rule : Rule) : (resolverOf rule).getMandateByID (Arr.zero 32) = some (mandateOf rule) :=
  AList.lookup_insert _

def entryAt (t : Int64) : ProvenanceEntry :=
  { hash := Arr.zero 32, submitter := Arr.zero 16, timestamp := t, label := "" }

def twoSeconds : ComplianceWindow := ⟨1, 2000000001, 1, 1⟩

/-- One entry leaves the second of the two seconds open, and the report keeps its accounts. -/
theorem one_entry_accounted : ∃ fuel report,
    checkComplianceMandate fuel (resolverOf (ruleEvery 1)) (Arr.zero 32) twoSeconds [entryAt 1] 0 = some (.ok report) ∧
    Accounted fuel (resolverOf (ruleEvery 1)) (Arr.zero 32) (mandateOf (ruleEvery 1)) twoSeconds [entryAt 1] report := by
  refine (accounted_iff (resolverOf_knows (ruleEvery 1)) (by decide) [entryAt 1] 0).2 fun rule hrule _ _ => ?_
  obtain rfl := List.mem_singleton.1 hrule
  exact ⟨2, by decide⟩

/-- In the last nanosecond there is never a report. -/
theorem last_window_unreported : lastWindow.validate = .ok () ∧
    (resolverOf (ruleEvery 1)).getMandateByID (Arr.zero 32) = some (mandateOf (ruleEvery 1)) ∧
    ∀ fuel entries now, checkComplianceMandate fuel (resolverOf (ruleEvery 1)) (Arr.zero 32) lastWindow entries now = none := by
  have hvalid : lastWindow.validate = .ok () := by decide
  have hknown := resolverOf_knows (ruleEvery 1)
  refine ⟨hvalid, hknown, fun fuel entries now => ?_⟩
  rw [checkComplianceMandate_eq hvalid hknown, Option.map_eq_none_iff, Option.eq_none_iff_forall_ne_some]
  intro os hos
  obtain ⟨n, hn⟩ := obligations_ends_iff.1 ⟨fuel, os, hos⟩ (ruleEvery 1, 0) List.mem_cons_self rfl (by decide)
  exact hn (counter_lt n)

end Sample

/-! ## The deferral -/

/-- A complete entry of the class of the rule has the timestamp `t`. -/
def AnchoredAt (rule : Rule) (entries : List ProvenanceEntry) (t : ℤ) : Prop :=
  ∃ entry ∈ entries, entryMatchesRule entry rule = true ∧ Complete rule entry ∧ entry.timestamp.toInt = t

section Deferral

variable {rule : Rule} {window : ComplianceWindow} {entries : List ProvenanceEntry} {exp : Expectation}

/-- An interval that is anchored has a timestamp in it. -/
theorem Anchored.exists_at (h : Anchored rule exp entries) :
    ∃ t, AnchoredAt rule entries t ∧ exp.start.toInt ≤ t ∧ t < exp.stop.toInt := by
  obtain ⟨entry, hentry, ⟨hmatch, hstart, hstop⟩, hcomplete⟩ := h
  exact ⟨_, ⟨entry, hentry, hmatch, hcomplete, rfl⟩, Int64.le_iff_toInt_le.1 hstart, Int64.lt_iff_toInt_lt.1 hstop⟩

/-- A deferral whose nanoseconds are no `int64` is longer than any window. -/
theorem lt_deferral (hpos : 0 < rule.maxDeferralSec) (hb : ¬ rule.Bounded) (hvalid : window.validate = .ok ()) :
    window.endTimestamp.toInt < window.startTimestamp.toInt + rule.deferral := by
  have hlarge : ¬ rule.maxDeferralSec ≤ maxDeferralSec := fun hle => hb ⟨hpos, hle⟩
  rw [UInt64.le_iff_toNat_le, maxDeferralSec_toNat] at hlarge
  have hend := window.endTimestamp.toInt_lt
  have hstart := (ComplianceWindow.validate_ok_iff.1 hvalid).1
  rw [Int64.lt_iff_toInt_lt, Int64.toInt_zero] at hstart
  unfold Rule.deferral
  omega

/-- If all its intervals are anchored, then a rule has a complete entry in every whole deferral from the start of the window
on. An interval that a round outside the range of `int64` has cut would be empty. -/
theorem filled_of_anchored (hpos : 0 < rule.maxDeferralSec) (hvalid : window.validate = .ok ()) {fuel : ℕ}
    {exps : List Expectation} (hexps : expectedEvents fuel rule window = some exps)
    (hall : ∀ exp ∈ exps, Anchored rule exp entries) :
    Filled (AnchoredAt rule entries) window.startTimestamp.toInt window.endTimestamp.toInt rule.deferral := by
  intro k hk
  by_cases hb : rule.Bounded
  · rw [expectedEvents_of_bounded hb] at hexps
    rw [← hb.step_toInt] at hk ⊢
    obtain ⟨n, hreach⟩ := reaches_of_nonempty hb.step_pos hexps fun exp hexp => by
      obtain ⟨t, -, hstart, hstop⟩ := (hall exp hexp).exists_at
      exact Int64.lt_iff_toInt_lt.2 (lt_of_le_of_lt hstart hstop)
    obtain ⟨exp, hexp, hstart, hstop⟩ := (buckets_tile hb.step_pos hreach hexps).2.2 k hk
    obtain ⟨t, ht, hle, hlt⟩ := (hall exp hexp).exists_at
    rw [hstop, lt_min_iff] at hlt
    exact ⟨t, ht, hstart ▸ hle, hlt⟩
  · rw [expectedEvents_of_not_bounded hb] at hexps
    cases hexps
    have hlong := lt_deferral hpos hb hvalid
    cases k with
    | zero =>
      obtain ⟨t, ht, hle, hlt⟩ := (hall _ List.mem_cons_self).exists_at
      dsimp only at hle hlt
      exact ⟨t, ht, by simpa using hle, by simp only [Nat.cast_zero]; omega, hlt⟩
    | succ k =>
      have hnonneg : 0 ≤ rule.deferral := by unfold Rule.deferral; omega
      have hk' := mul_nonneg (Int.natCast_nonneg k) hnonneg
      rw [succ_mul_step] at hk
      omega

end Deferral

/-- **A clean report.** For every mandate, window and list of entries: if the report has no gap for a mandatory rule with a
deferral, then every interval of the length of the deferral in the window has a complete entry of the class of the rule in it
exactly if the entries next to each border of the buckets are at most a deferral apart. -/
theorem clean_iff {fuel : ℕ} {resolver : MandateResolver} {mandateID : Hash} {mandate : MandateEntry} {window : ComplianceWindow}
    {entries : List ProvenanceEntry} {now : Int64} {report : ComplianceReport} {index : ℕ} {rule : Rule}
    (hknown : resolver.getMandateByID mandateID = some mandate)
    (hreport : checkComplianceMandate fuel resolver mandateID window entries now = some (.ok report))
    (hrule : mandate.rules[index]? = some rule) (hmandatory : rule.mandatory = true) (hpos : 0 < rule.maxDeferralSec)
    (hclean : ∀ g ∈ report.gaps, g.ruleIndex ≠ index) :
    EveryLength (AnchoredAt rule entries) window.startTimestamp.toInt window.endTimestamp.toInt rule.deferral ↔
      CloseAtBorders (AnchoredAt rule entries) window.startTimestamp.toInt window.endTimestamp.toInt rule.deferral := by
  have hvalid := (checkComplianceMandate_ok hreport).1
  have hdeferral : 0 < rule.deferral := by
    rw [UInt64.lt_iff_toNat_lt, UInt64.toNat_zero] at hpos
    unfold Rule.deferral
    omega
  -- the loop of the rule has come to its end, since there is a report
  obtain ⟨os, hos, -, -, hgaps⟩ := report_eq hknown hreport
  have hends := obligations_zipIdx_iff.1 ⟨fuel, os, hos⟩ rule (List.mem_of_getElem? hrule) hmandatory
  obtain ⟨fuel', exps, hexps⟩ := expectedEvents_ends_iff.2 hends
  refine everyLength_iff hdeferral (filled_of_anchored hpos hvalid hexps fun exp hexp => ?_)
  by_contra hnot
  obtain ⟨g, hg, hplace⟩ := (exists_gap_iff hos index exp).2 ⟨rule, hrule, hmandatory, ⟨fuel', exps, hexps, hexp⟩, hnot⟩
  exact hclean g (hgaps ▸ hg) (congrArg Prod.fst hplace)

namespace Sample

/-- The report on the two seconds is about two intervals. -/
theorem exists_twoSeconds_report (entries : List ProvenanceEntry) : ∃ report,
    checkComplianceMandate 3 (resolverOf (ruleEvery 1)) (Arr.zero 32) twoSeconds entries 0 = some (.ok report) ∧
    report.gaps = [⟨0, ruleEvery 1, ⟨1, 1000000001⟩⟩, ⟨0, ruleEvery 1, ⟨1000000001, 2000000001⟩⟩].filterMap
      (Obligation.gap (Arr.zero 32) entries) := by
  have hos : obligations 3 twoSeconds (mandateOf (ruleEvery 1)).rules.zipIdx =
    some [⟨0, ruleEvery 1, ⟨1, 1000000001⟩⟩, ⟨0, ruleEvery 1, ⟨1000000001, 2000000001⟩⟩] := by rfl
  have hknown := resolverOf_knows (ruleEvery 1)
  obtain ⟨report, h⟩ := exists_report (by decide) hknown hos entries 0
  obtain ⟨os, hos', -, -, hgaps⟩ := report_eq hknown h
  cases hos.symm.trans hos'
  exact ⟨report, h, hgaps⟩

theorem anchoredAt_pair {a b : Int64} {t : ℤ} :
    AnchoredAt (ruleEvery 1) [entryAt a, entryAt b] t ↔ t = a.toInt ∨ t = b.toInt := by
  have hcomplete : ∀ entry, Complete (ruleEvery 1) entry := fun entry field hfield => by cases hfield
  have hmatch : ∀ entry, entryMatchesRule entry (ruleEvery 1) = true := fun _ => rfl
  simp [AnchoredAt, hcomplete, hmatch, entryAt, eq_comm]

/-- Two entries `0.8` seconds apart keep the deferral of a second. -/
theorem spaced_entries_timely : ∃ report,
    checkComplianceMandate 3 (resolverOf (ruleEvery 1)) (Arr.zero 32) twoSeconds [entryAt 600000000, entryAt 1400000000] 0 =
      some (.ok report) ∧ report.gaps = [] ∧
    EveryLength (AnchoredAt (ruleEvery 1) [entryAt 600000000, entryAt 1400000000]) 1 2000000001 1000000000 := by
  obtain ⟨report, h, hgaps⟩ := exists_twoSeconds_report [entryAt 600000000, entryAt 1400000000]
  have hclean : report.gaps = [] := hgaps.trans (by rfl)
  have hrule : (mandateOf (ruleEvery 1)).rules[0]? = some (ruleEvery 1) := rfl
  refine ⟨report, h, hclean, ?_⟩
  refine (clean_iff (resolverOf_knows (ruleEvery 1)) h hrule rfl (by decide) (by simp [hclean])).2 ?_
  intro k hk _ t t' ha
  obtain ⟨ht, ht', -, -, -⟩ := ha
  have hdeferral : (ruleEvery 1).deferral = 1000000000 := by decide
  have hfirst : (600000000 : Int64).toInt = 600000000 := by decide
  have hlast : (1400000000 : Int64).toInt = 1400000000 := by decide
  rw [anchoredAt_pair, hfirst, hlast] at ht ht'
  rw [hdeferral]
  omega

/-- One entry at the start of the first second and one at the end of the next leave almost two seconds without an entry, and
there is no gap. -/
theorem late_entry_clean : ∃ report,
    checkComplianceMandate 3 (resolverOf (ruleEvery 1)) (Arr.zero 32) twoSeconds [entryAt 1, entryAt 2000000000] 0 =
      some (.ok report) ∧ report.gaps = [] ∧ (ruleEvery 1).mandatory = true ∧
    ¬ EveryLength (AnchoredAt (ruleEvery 1) [entryAt 1, entryAt 2000000000]) 1 2000000001 1000000000 := by
  obtain ⟨report, h, hgaps⟩ := exists_twoSeconds_report [entryAt 1, entryAt 2000000000]
  refine ⟨report, h, hgaps.trans (by rfl), rfl, fun hevery => ?_⟩
  obtain ⟨t, ht, hle, hlt⟩ := hevery 2 (by decide) (by decide)
  have hfirst : (1 : Int64).toInt = 1 := by decide
  have hlast : (2000000000 : Int64).toInt = 2000000000 := by decide
  rw [anchoredAt_pair, hfirst, hlast] at ht
  omega

end Sample

/-! ## What entries say about mandates -/

/-- The entry without its reference to a mandate. -/
def ProvenanceEntry.withoutRef (entry : ProvenanceEntry) : ProvenanceEntry := { entry with mandateRef := none }

/-- What a report found. -/
def ComplianceReport.findings (report : ComplianceReport) : ℕ × ℕ × List ComplianceGap :=
  (report.totalExpected, report.totalAnchored, report.gaps)

section Refs

variable {rule : Rule} {exp : Expectation} {entries : List ProvenanceEntry}

theorem entryHasField_withoutRef (entry : ProvenanceEntry) {field : String} (h : field ≠ "MandateRef") :
    entryHasField entry.withoutRef field = entryHasField entry field := by
  unfold entryHasField
  split
  case h_4 => exact absurd rfl h
  all_goals rfl

theorem missingFields_withoutRef (h : "MandateRef" ∉ rule.requiredFields) (entry : ProvenanceEntry) :
    missingFields rule entry.withoutRef = missingFields rule entry := by
  refine List.filter_congr fun field hfield => ?_
  rw [entryHasField_withoutRef entry fun heq => h (heq ▸ hfield)]

/-- The search finds the same entry whatever the references are. -/
theorem findFrom_withoutRef (h : "MandateRef" ∉ rule.requiredFields) (found : Option (ProvenanceEntry × List String)) :
    findFrom rule exp (found.map (Prod.map ProvenanceEntry.withoutRef id)) (entries.map ProvenanceEntry.withoutRef) =
      (findFrom rule exp found entries).map (Prod.map ProvenanceEntry.withoutRef id) := by
  induction entries generalizing found with
  | nil => rfl
  | cons entry entries ih =>
    rw [List.map_cons]
    by_cases hans : Answers rule exp entry
    · have hans' : Answers rule exp entry.withoutRef := hans
      rw [findFrom_of_answers hans, findFrom_of_answers hans', missingFields_withoutRef h]
      split
      · rfl
      · rw [← ih]
        cases found <;> rfl
    · have hans' : ¬ Answers rule exp entry.withoutRef := hans
      rw [findFrom_of_not_answers hans, findFrom_of_not_answers hans', ih]

theorem Obligation.gap_withoutRef {o : Obligation} (h : "MandateRef" ∉ o.rule.requiredFields) (mandateID : Hash) :
    o.gap mandateID (entries.map ProvenanceEntry.withoutRef) = o.gap mandateID entries := by
  have hfind : findMatchingEntry o.rule o.interval (entries.map ProvenanceEntry.withoutRef) =
      (findMatchingEntry o.rule o.interval entries).map (Prod.map ProvenanceEntry.withoutRef id) := findFrom_withoutRef h none
  unfold gap
  rw [hfind]
  cases findMatchingEntry o.rule o.interval entries <;> rfl

end Refs

/-- **References to mandates.** For every mandate none of whose rules requires the field `MandateRef`, every window and two
lists of entries that are the same but for their references, `CheckComplianceMandate` ends in the same way, with the same
counts and the same gaps. -/
theorem mandateRef_ignored {resolver : MandateResolver} {mandateID : Hash}
    (hrules : ∀ mandate, resolver.getMandateByID mandateID = some mandate → ∀ rule ∈ mandate.rules,
      "MandateRef" ∉ rule.requiredFields) {entries entries' : List ProvenanceEntry}
    (hsame : entries.map ProvenanceEntry.withoutRef = entries'.map ProvenanceEntry.withoutRef)
    (window : ComplianceWindow) (fuel : ℕ) (now now' : Int64) :
    (checkComplianceMandate fuel resolver mandateID window entries now).map (·.map ComplianceReport.findings) =
      (checkComplianceMandate fuel resolver mandateID window entries' now').map (·.map ComplianceReport.findings) := by
  cases hvalid : window.validate with
  | error err => simp [checkComplianceMandate, hvalid]
  | ok u =>
    cases hknown : resolver.getMandateByID mandateID with
    | none => simp [checkComplianceMandate, hvalid, hknown]
    | some mandate =>
      rw [checkComplianceMandate_eq hvalid hknown, checkComplianceMandate_eq hvalid hknown]
      cases hos : obligations fuel window mandate.rules.zipIdx with
      | none => rfl
      | some os =>
        have hgap : ∀ o ∈ os, o.gap mandateID entries = o.gap mandateID entries' := by
          intro o ho
          have hmem := ((mem_obligations hos).1 ho).1
          have hfield := hrules mandate hknown o.rule (List.fst_mem_of_mem_zipIdx hmem)
          rw [← Obligation.gap_withoutRef hfield, hsame, Obligation.gap_withoutRef hfield]
        have hcount : os.countP (fun o => (o.gap mandateID entries).isNone) =
            os.countP (fun o => (o.gap mandateID entries').isNone) :=
          List.countP_congr fun o ho => by rw [hgap o ho]
        have hgaps : os.filterMap (Obligation.gap mandateID entries) = os.filterMap (Obligation.gap mandateID entries') :=
          List.filterMap_congr hgap
        simp [Except.map, ComplianceReport.findings, ComplianceReport.tally, hcount, hgaps]

namespace Sample

/-- An entry that names the mandate counts as much as one that does not. -/
theorem named_mandate_ignored :
    (checkComplianceMandate 3 (resolverOf (ruleEvery 1)) (Arr.zero 32) twoSeconds
      [{ entryAt 1 with mandateRef := some (Arr.zero 32) }] 0).map (·.map ComplianceReport.findings) =
    (checkComplianceMandate 3 (resolverOf (ruleEvery 1)) (Arr.zero 32) twoSeconds [entryAt 1] 7).map
      (·.map ComplianceReport.findings) := by
  have hsame : [{ entryAt 1 with mandateRef := some (Arr.zero 32) }].map ProvenanceEntry.withoutRef =
      [entryAt 1].map ProvenanceEntry.withoutRef := rfl
  refine mandateRef_ignored (fun mandate hknown rule hrule => ?_) hsame twoSeconds 3 0 7
  rw [resolverOf_knows] at hknown
  cases hknown
  obtain rfl := List.mem_singleton.1 hrule
  decide

end Sample

end Gleipnir
