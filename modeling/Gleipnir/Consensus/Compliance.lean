import Gleipnir.Consensus.ChainLinks
import Gleipnir.Consensus.Enforcement
import Gleipnir.Validation.Audits

/-!
# Audits of an engine

The compliance queries of `consensus/mandates.go`: the entries of the blocks in a range of cycles are gathered and handed to the
compliance checker.

`open_ended_iff`: a range without an end is only the range up to the last block if it has no start either, since the checker
refuses a window whose end cycle, zero, is below its start cycle.
-/

namespace Gleipnir

open Atomic

/-! ## The queries -/

/-- The loop of `EntriesInWindow`. -/
def entriesIn (startCycle endCycle : UInt64) : List Block → List ProvenanceEntry
  | [] => []
  | block :: blocks =>
    if block.index < startCycle then entriesIn startCycle endCycle blocks
    else if endCycle > 0 ∧ block.index > endCycle then []
    else block.anchored ++ entriesIn startCycle endCycle blocks

namespace Engine

/-- `EntriesInWindow`. -/
def entriesInWindow (e : Engine) (startCycle endCycle : UInt64) : List ProvenanceEntry :=
  entriesIn startCycle endCycle e.blocks

/-- `CheckCompliance`, with `fuel` rounds for each bucket loop of the checker, at the time `now`. -/
def checkCompliance (e : Engine) (fuel : ℕ) (mandateID : Hash) (window : ComplianceWindow) (now : Int64) :
    Option (Except ComplianceError ComplianceReport) :=
  checkComplianceMandate fuel e.mandateResolver mandateID window (e.entriesInWindow window.startCycle window.endCycle) now

/-- `CheckAllCompliance`. -/
def checkAllCompliance (e : Engine) (fuel : ℕ) (window : ComplianceWindow) (now : Int64) :
    Option (Except ComplianceError (List ComplianceReport)) :=
  checkAllMandates fuel e.mandateResolver window (e.entriesInWindow window.startCycle window.endCycle) now

/-- The entries of the blocks before the first one whose index is above `cycle`. -/
def within (e : Engine) (cycle : UInt64) : List ProvenanceEntry :=
  (e.blocks.takeWhile fun b => b.index ≤ cycle).flatMap (·.anchored)

/-- The entries from that block on. -/
def beyond (e : Engine) (cycle : UInt64) : List ProvenanceEntry :=
  (e.blocks.dropWhile fun b => b.index ≤ cycle).flatMap (·.anchored)

theorem within_append_beyond (e : Engine) (cycle : UInt64) :
    e.within cycle ++ e.beyond cycle = e.blocks.flatMap (·.anchored) := by
  rw [within, beyond, ← List.flatMap_append, List.takeWhile_append_dropWhile]

/-- Without a start and an end the range is the whole chain. -/
theorem entriesInWindow_zero (e : Engine) : e.entriesInWindow 0 0 = e.blocks.flatMap (·.anchored) := by
  unfold entriesInWindow
  induction e.blocks with
  | nil => rfl
  | cons b blocks ih =>
    rw [entriesIn, if_neg UInt64.not_lt_zero, if_neg (fun h => UInt64.not_lt_zero h.1), ih, List.flatMap_cons]

theorem entriesInWindow_of_pos (e : Engine) {cycle : UInt64} (h : 0 < cycle) : e.entriesInWindow 0 cycle = e.within cycle := by
  unfold entriesInWindow within
  induction e.blocks with
  | nil => rfl
  | cons b blocks ih =>
    rw [entriesIn, if_neg UInt64.not_lt_zero]
    by_cases hle : b.index ≤ cycle
    · rw [if_neg (fun hgt => UInt64.not_lt.2 hle hgt.2), List.takeWhile_cons_of_pos (by simpa using hle), List.flatMap_cons, ih]
    · rw [if_pos ⟨h, UInt64.not_le.1 hle⟩, List.takeWhile_cons_of_neg (by simpa using hle), List.flatMap_nil]

end Engine

/-! ## Entries that make no difference -/

/-- The entries `ys` add nothing to `xs` for the expectation: if one of them answers it, one of `xs` does, and if one of them
is complete, one of `xs` is. -/
structure Redundant (rule : Rule) (exp : Expectation) (xs ys : List ProvenanceEntry) : Prop where
  anchored : Anchored rule exp ys → Anchored rule exp xs
  answered : (∃ entry ∈ ys, Answers rule exp entry) → ∃ entry ∈ xs, Answers rule exp entry

theorem redundant_nil (rule : Rule) (exp : Expectation) (xs : List ProvenanceEntry) : Redundant rule exp xs [] := by
  constructor
  · rintro ⟨entry, hentry, -⟩
    cases hentry
  · rintro ⟨entry, hentry, -⟩
    cases hentry

section Search

variable {rule : Rule} {exp : Expectation} {xs ys : List ProvenanceEntry} {found : Option (ProvenanceEntry × List String)}

theorem Anchored.mono (h : Anchored rule exp xs) (hsub : xs ⊆ ys) : Anchored rule exp ys := by
  obtain ⟨entry, hentry, hanchors⟩ := h
  exact ⟨entry, hsub hentry, hanchors⟩

theorem Anchored.answered (h : Anchored rule exp xs) : ∃ entry ∈ xs, Answers rule exp entry := by
  obtain ⟨entry, hentry, hans, -⟩ := h
  exact ⟨entry, hentry, hans⟩

theorem anchored_append : Anchored rule exp (xs ++ ys) ↔ Anchored rule exp xs ∨ Anchored rule exp ys := by
  simp only [Anchored, List.mem_append, or_and_right, exists_or]

/-- A search that has not ended goes on with what it has found. -/
theorem findFrom_append (h : ¬ Anchored rule exp xs) :
    findFrom rule exp found (xs ++ ys) = findFrom rule exp (findFrom rule exp found xs) ys := by
  induction xs generalizing found with
  | nil => rfl
  | cons x xs ih =>
    have hxs : ¬ Anchored rule exp xs := fun hxs => h (hxs.mono (List.subset_cons_self x xs))
    rw [List.cons_append]
    by_cases hans : Answers rule exp x
    · have hincomplete : ¬ (missingFields rule x).isEmpty = true :=
        fun hempty => h ⟨x, List.mem_cons_self, hans, missingFields_isEmpty.1 hempty⟩
      rw [findFrom_of_answers hans, findFrom_of_answers hans, if_neg hincomplete, if_neg hincomplete, ih hxs]
    · rw [findFrom_of_not_answers hans, findFrom_of_not_answers hans, ih hxs]

/-- The first incomplete entry stays, if no complete one follows. -/
theorem findFrom_some (f : ProvenanceEntry × List String) (h : ¬ Anchored rule exp ys) :
    findFrom rule exp (some f) ys = some f := by
  induction ys with
  | nil => rfl
  | cons y ys ih =>
    have hys : ¬ Anchored rule exp ys := fun hys => h (hys.mono (List.subset_cons_self y ys))
    by_cases hans : Answers rule exp y
    · have hincomplete : ¬ (missingFields rule y).isEmpty = true :=
        fun hempty => h ⟨y, List.mem_cons_self, hans, missingFields_isEmpty.1 hempty⟩
      rw [findFrom_of_answers hans, if_neg hincomplete]
      exact ih hys
    · rw [findFrom_of_not_answers hans, ih hys]

/-- Redundant entries leave the gap of an obligation as it is. -/
theorem Obligation.gap_append {o : Obligation} (h : Redundant o.rule o.interval xs ys) (mandateID : Hash) :
    o.gap mandateID (xs ++ ys) = o.gap mandateID xs := by
  by_cases hxs : Anchored o.rule o.interval xs
  · rw [gap_eq_none.2 hxs, gap_eq_none.2 (anchored_append.2 (.inl hxs))]
  · have hys : ¬ Anchored o.rule o.interval ys := fun hys => hxs (h.anchored hys)
    have hfind : findMatchingEntry o.rule o.interval (xs ++ ys) = findMatchingEntry o.rule o.interval xs := by
      rw [findMatchingEntry, findFrom_append hxs]
      change findFrom _ _ (findMatchingEntry o.rule o.interval xs) ys = _
      cases hfound : findMatchingEntry o.rule o.interval xs with
      | some f => exact findFrom_some f hys
      | none =>
        refine findFrom_eq_none.2 ⟨rfl, fun entry hentry hans => ?_⟩
        obtain ⟨entry', hentry', hans'⟩ := h.answered ⟨entry, hentry, hans⟩
        exact findMatchingEntry_eq_none.1 hfound entry' hentry' hans'
    unfold gap
    rw [hfind]

end Search

/-! ## Windows without an end -/

/-- The window with another end cycle. -/
def ComplianceWindow.upTo (w : ComplianceWindow) (cycle : UInt64) : ComplianceWindow := { w with endCycle := cycle }

/-- The obligations are a matter of the timestamps. -/
theorem obligations_upTo (fuel : ℕ) (w : ComplianceWindow) (cycle : UInt64) (rules : List (Rule × ℕ)) :
    obligations fuel (w.upTo cycle) rules = obligations fuel w rules := by
  induction rules with
  | nil => rfl
  | cons rule rules ih =>
    rw [obligations, obligations, ih]
    rfl

/-- Two lists of entries give the same findings on the obligations exactly if what the longer one has more is redundant. -/
theorem findings_append_iff {fuel : ℕ} {w : ComplianceWindow} {mandate : MandateEntry} {os : List Obligation} (mandateID : Hash)
    {xs ys : List ProvenanceEntry} (hos : obligations fuel w mandate.rules.zipIdx = some os) :
    (os.countP (fun o => (o.gap mandateID (xs ++ ys)).isNone) = os.countP (fun o => (o.gap mandateID xs).isNone) ∧
      os.filterMap (Obligation.gap mandateID (xs ++ ys)) = os.filterMap (Obligation.gap mandateID xs)) ↔
    ∀ o ∈ os, Redundant o.rule o.interval xs ys := by
  constructor
  · rintro ⟨-, hgaps⟩ o ho
    by_cases hanch : Anchored o.rule o.interval xs
    · exact ⟨fun _ => hanch, fun _ => hanch.answered⟩
    -- an obligation that is open on `xs` has a gap, and the other list has the same gap
    obtain ⟨hrule, hmandatory, hobliged⟩ := (mem_obligations_iff hos).1 ho
    have hgap : ∃ g ∈ os.filterMap (Obligation.gap mandateID xs), g.place = (o.index, o.interval) :=
      (exists_gap_iff hos o.index o.interval).2 ⟨o.rule, hrule, hmandatory, hobliged, hanch⟩
    obtain ⟨g, hg, hplace⟩ := hgap
    have hg' : g ∈ os.filterMap (Obligation.gap mandateID (xs ++ ys)) := hgaps ▸ hg
    constructor
    case anchored =>
      intro hys
      obtain ⟨rule, hrule', -, -, hopen⟩ := (exists_gap_iff hos o.index o.interval).1 ⟨g, hg', hplace⟩
      cases hrule.symm.trans hrule'
      exact absurd (anchored_append.2 (.inr hys)) hopen
    case answered =>
      rintro ⟨entry, hentry, hans⟩
      by_contra hnone
      push Not at hnone
      rw [ComplianceGap.place, Prod.mk.injEq] at hplace
      have hrule' : mandate.rules[g.ruleIndex]? = some o.rule := by rw [hplace.1, hrule]
      have hmissing := (missing_iff_of_mem hos g hg o.rule hrule').2 (by rwa [hplace.2])
      rw [missing_iff_of_mem hos g hg' o.rule hrule', hplace.2] at hmissing
      exact hmissing entry (List.mem_append_right _ hentry) hans
  · intro hred
    have hgap : ∀ o ∈ os, o.gap mandateID (xs ++ ys) = o.gap mandateID xs := fun o ho => Obligation.gap_append (hred o ho) mandateID
    exact ⟨List.countP_congr fun o ho => by rw [hgap o ho], List.filterMap_congr hgap⟩

section OpenEnded

variable {e : Engine} {mandateID : Hash} {mandate : MandateEntry} {window : ComplianceWindow}

/-- What a query with a valid window finds. -/
theorem checkCompliance_findings (hknown : e.mandateResolver.getMandateByID mandateID = some mandate) {cycle : UInt64}
    (hvalid : (window.upTo cycle).validate = .ok ()) (fuel : ℕ) (now : Int64) :
    (e.checkCompliance fuel mandateID (window.upTo cycle) now).map (·.map ComplianceReport.findings) =
      (obligations fuel window mandate.rules.zipIdx).map fun os =>
        .ok (os.length, os.countP (fun o => (o.gap mandateID (e.entriesInWindow window.startCycle cycle)).isNone),
          os.filterMap (Obligation.gap mandateID (e.entriesInWindow window.startCycle cycle))) := by
  rw [Engine.checkCompliance, checkComplianceMandate_eq hvalid hknown, obligations_upTo, Option.map_map]
  congr 1
  funext os
  simp [Except.map, ComplianceReport.findings, ComplianceReport.tally, ComplianceWindow.upTo]

theorem endTimestamp_pos (hpos : 0 < window.startTimestamp) (hle : window.startTimestamp ≤ window.endTimestamp) :
    0 < window.endTimestamp := by
  rw [Int64.lt_iff_toInt_lt] at hpos ⊢
  rw [Int64.le_iff_toInt_le] at hle
  omega

/-- A range with a start and without an end is refused. -/
theorem checkCompliance_open_error (hpos : 0 < window.startTimestamp) (hle : window.startTimestamp ≤ window.endTimestamp)
    (hstart : window.startCycle ≠ 0) (fuel : ℕ) (now : Int64) :
    e.checkCompliance fuel mandateID (window.upTo 0) now =
      some (.error (.endCycleBeforeStart 0 window.startCycle)) := by
  have hpos' := Int64.not_le.2 (endTimestamp_pos hpos hle)
  have hvalidate : (window.upTo 0).validate = .error (.endCycleBeforeStart 0 window.startCycle) := by
    unfold ComplianceWindow.validate ComplianceWindow.upTo
    dsimp only
    rw [if_neg (not_or.2 ⟨Int64.not_le.2 hpos, hpos'⟩), if_neg (Int64.not_lt.2 hle), if_pos (UInt64.pos_iff_ne_zero.2 hstart)]
  rw [Engine.checkCompliance, checkComplianceMandate, hvalidate]

/-- **Open-ended audits.** For every engine and its last block, every known mandate, all timestamps that make a window and every
start cycle up to the last block: the query with the range from that cycle on finds the same as the one with the range up to the
last block, whether they return or not, exactly if the range starts at zero and, where a block before the last one has a
higher index, the entries from there on make no difference to the mandate. Any other block may take the place of the last. -/
theorem open_ended_iff {last : Block} (hknown : e.mandateResolver.getMandateByID mandateID = some mandate)
    (hpos : 0 < window.startTimestamp) (hle : window.startTimestamp ≤ window.endTimestamp) (hstart : window.startCycle ≤ last.index) :
    (∀ fuel now now', (e.checkCompliance fuel mandateID (window.upTo 0) now).map (·.map ComplianceReport.findings) =
      (e.checkCompliance fuel mandateID (window.upTo last.index) now').map (·.map ComplianceReport.findings)) ↔
    window.startCycle = 0 ∧ (0 < last.index → (∀ rule ∈ mandate.rules, rule.mandatory = true → rule.Ends window) →
      ∀ rule ∈ mandate.rules, rule.mandatory = true → ∀ interval, rule.Due window interval →
        Redundant rule interval (e.within last.index) (e.beyond last.index)) := by
  have hvalid : ∀ cycle, window.startCycle ≤ cycle → (window.upTo cycle).validate = .ok () := fun cycle hcycle =>
    ComplianceWindow.validate_ok_iff.2 ⟨hpos, endTimestamp_pos hpos hle, hle, hcycle⟩
  by_cases hzero : window.startCycle = 0
  swap
  · -- the one query is refused, the other is not
    refine iff_of_false (fun hsame => ?_) fun h => hzero h.1
    have h := hsame 0 0 0
    rw [checkCompliance_open_error hpos hle hzero, checkCompliance_findings hknown (hvalid _ hstart)] at h
    cases hos : obligations 0 window mandate.rules.zipIdx with
    | none =>
      rw [hos] at h
      cases h
    | some os =>
      rw [hos] at h
      cases h
  simp only [hzero, true_and, checkCompliance_findings hknown (hvalid 0 (by rw [hzero]; exact UInt64.le_refl 0)),
    checkCompliance_findings hknown (hvalid _ hstart), forall_const]
  by_cases hindex : last.index = 0
  · -- the last block has the index zero, and the two ranges are the same
    simp only [hindex, UInt64.lt_irrefl, false_implies, implies_true]
  have hindex' := UInt64.pos_iff_ne_zero.2 hindex
  rw [e.entriesInWindow_zero, e.entriesInWindow_of_pos hindex', ← e.within_append_beyond last.index]
  constructor
  · intro hsame _ hends
    obtain ⟨fuel, os, hos⟩ := obligations_zipIdx_iff.2 hends
    have h := hsame fuel
    rw [hos, Option.map_some, Option.map_some, Option.some.injEq, Except.ok.injEq, Prod.mk.injEq, Prod.mk.injEq] at h
    exact (forall_obligations_iff hos).1 ((findings_append_iff mandateID hos).1 h.2)
  · intro hred fuel
    cases hos : obligations fuel window mandate.rules.zipIdx with
    | none => rfl
    | some os =>
      have hall := (forall_obligations_iff hos).2 (hred hindex' (obligations_zipIdx_iff.1 ⟨fuel, os, hos⟩))
      have hfindings := (findings_append_iff mandateID hos).2 hall
      rw [Option.map_some, Option.map_some, hfindings.1, hfindings.2]

end OpenEnded

namespace Sample

/-- A mandate of the first validator with one obligation for the whole window. The encoding of the instance leaves rules out,
so the identifier and the signature are those without the rule. -/
def audited : MandateEntry := { issued 1 (Arr.zero 32) with rules := [ruleEvery 0] }

/-- A single node that learns the mandate and anchors two entries in two blocks. -/
def auditedChain : List (Transition Engine Called) × Engine × MemoryBus :=
  callsOver sealing [.recordMandateBody audited, .enqueue (entry 9), .runCycle, .enqueue (entry 8), .runCycle]
    (Engine.new (node 1)) MemoryBus.new

/-- Of the rule only what the checker reads of it is compared. -/
def auditedChainFacts : Computed auditedChain fun x => x.2.1.blocks.map (·.index) = [0, 1] ∧
    (x.2.1.mandateResolver.lookup audited.id).map (·.rules.map fun rule => (rule.mandatory, rule.maxDeferralSec)) =
      some [(true, 0)] :=
  computed _ (by decide +kernel)

/-- The engine has two blocks and knows the mandate. -/
theorem exists_auditedChain : ∃ τ e last mandate rule, EngineRun sealing (Engine.new (node 1)) τ e ∧
    e.blocks.getLast? = some last ∧ last.index = 1 ∧ e.beyond 1 = [] ∧
    e.mandateResolver.getMandateByID audited.id = some mandate ∧ mandate.rules = [rule] ∧ rule.mandatory = true ∧
    rule.maxDeferralSec = 0 := by
  have hrun : EngineRun sealing (Engine.new (node 1)) auditedChain.1 auditedChain.2.1 := run_callsOver sealing _ _ _
  obtain ⟨x, hx, hindices, hrules⟩ := auditedChainFacts
  rw [← hx] at hrun
  obtain ⟨a, rest, hblocks, ha, hrest⟩ := List.map_eq_cons_iff.1 hindices
  obtain ⟨b, rest, rfl, hb, hnil⟩ := List.map_eq_cons_iff.1 hrest
  obtain rfl := List.map_eq_nil_iff.1 hnil
  obtain ⟨mandate, hknown, hrules⟩ := Option.map_eq_some_iff.1 hrules
  obtain ⟨rule, rest, hrule, hpair, hnil⟩ := List.map_eq_cons_iff.1 hrules
  obtain rfl := List.map_eq_nil_iff.1 hnil
  rw [Prod.mk.injEq] at hpair
  refine ⟨x.1, x.2.1, b, mandate, rule, hrun, by rw [hblocks]; rfl, hb, ?_, hknown, hrule, hpair.1, hpair.2⟩
  have ha' : (0 : UInt64) ≤ 1 := by decide
  simp [Engine.beyond, hblocks, ha, hb, ha']

/-- The two seconds, from a cycle on. -/
def since (cycle : UInt64) : ComplianceWindow := { twoSeconds with startCycle := cycle }

theorem since_times (cycle : UInt64) : 0 < (since cycle).startTimestamp ∧
    (since cycle).startTimestamp ≤ (since cycle).endTimestamp := by
  change (0 : Int64) < 1 ∧ (1 : Int64) ≤ 2000000001
  decide

/-- From zero on the two queries agree. -/
theorem open_from_zero_agrees : ∃ e : Engine, ∃ last mandate, e.blocks.getLast? = some last ∧
    e.mandateResolver.getMandateByID audited.id = some mandate ∧ mandate.rules ≠ [] ∧ ∀ fuel now now',
      (e.checkCompliance fuel audited.id ((since 0).upTo 0) now).map (·.map ComplianceReport.findings) =
        (e.checkCompliance fuel audited.id ((since 0).upTo last.index) now').map (·.map ComplianceReport.findings) := by
  obtain ⟨-, e, last, mandate, rule, -, hlast, hindex, hbeyond, hknown, hrules, -, -⟩ := exists_auditedChain
  have hstart : (since 0).startCycle ≤ last.index := by
    rw [hindex]
    decide
  refine ⟨e, last, mandate, hlast, hknown, by simp [hrules], ?_⟩
  refine (open_ended_iff hknown (since_times 0).1 (since_times 0).2 hstart).2 ⟨rfl, fun _ _ rule _ _ interval _ => ?_⟩
  rw [hindex, hbeyond]
  exact redundant_nil rule interval _

/-- From the second block on, the query without an end is refused and the one up to the second block is answered. -/
theorem open_from_one_refused : ∃ e₀ τ e last mandate, e₀.Fresh ∧ EngineRun sealing e₀ τ e ∧ e.blocks.getLast? = some last ∧
    last.index = 1 ∧ e.mandateResolver.getMandateByID audited.id = some mandate ∧
    e.checkCompliance 1 audited.id ((since 1).upTo 0) 0 = some (.error (.endCycleBeforeStart 0 1)) ∧
    ∃ report, e.checkCompliance 1 audited.id ((since 1).upTo last.index) 0 = some (.ok report) := by
  obtain ⟨τ, e, last, mandate, rule, hrun, hlast, hindex, -, hknown, hrules, hmandatory, hdeferral⟩ := exists_auditedChain
  have hos : obligations 1 ((since 1).upTo 1) mandate.rules.zipIdx = some [⟨0, rule, ⟨1, 2000000001⟩⟩] := by
    simp [hrules, obligations, hmandatory, expectedEvents, hdeferral, since, twoSeconds, ComplianceWindow.upTo]
  refine ⟨Engine.new (node 1), τ, e, last, mandate, .inl ⟨_, rfl⟩, hrun, hlast, hindex, hknown,
    checkCompliance_open_error (since_times 1).1 (since_times 1).2 (by decide) 1 0, ?_⟩
  rw [hindex]
  exact exists_report (by decide) hknown hos _ 0

end Sample

end Gleipnir
