import Gleipnir.Genesis.Keys

/-!
# The minimal number of validators

The mandate of a specification says in its consensus rules how many validators there have to be. `Validate` compares the
number of validators with the first rule that says it; `ExtractConsensusConfig`, and `GetConsensusConfig` on the mandate of a
running chain, go on reading and end with the last (`extractConsensusConfig_minValidators`, `getConsensusConfig_eq`). What is
enforced is met exactly if the last rule is (`enforcedMinimum_iff`).

A mandate that was converted from version 1 has integers where a `float64` is read. All its parameters are the defaults
(`extractConsensusConfig_import`).
-/

namespace Gleipnir.Genesis

variable {C : FloatConv}

/-! ## Reading rules -/

/-- Replacing a value by each one that is found ends with the last. -/
theorem foldl_getD_eq {α β : Type} (f : α → Option β) (xs : List α) :
    ∀ b, xs.foldl (fun b x => (f x).getD b) b = (xs.filterMap f).getLast?.getD b := by
  induction xs with
  | nil => exact fun _ => rfl
  | cons x xs ih =>
    intro b
    rw [List.foldl_cons, ih]
    cases hx : f x with
    | none => rw [List.filterMap_cons_none hx, Option.getD_none]
    | some c =>
      rw [List.filterMap_cons_some hx, List.getLast?_cons, Option.getD_some, Option.getD_some]

/-- What a rule says about a parameter. -/
def setting (C : FloatConv) (name : String) (rule : MandateRuleSpec) : Option UInt64 :=
  if rule.eventClass = consensusConfigClass then uintField C rule.fields name else none

/-- What the rules say about a parameter, in order. -/
def settings (C : FloatConv) (name : String) (rules : List MandateRuleSpec) : List UInt64 :=
  rules.filterMap (setting C name)

/-- **The first rule counts** for `GetMinValidators`. -/
theorem getMinValidators_eq (m : MandateSpec) :
    m.getMinValidators C = (settings C "MinValidators" m.rules).head?.getD 4 := by
  unfold MandateSpec.getMinValidators settings
  induction m.rules with
  | nil => rfl
  | cons rule rules ih =>
    rw [firstMinValidators]
    split
    · next hclass =>
      have hsetting : setting C "MinValidators" rule = uintField C rule.fields "MinValidators" := if_pos hclass
      cases hfield : uintField C rule.fields "MinValidators" with
      | none => rw [List.filterMap_cons_none (hsetting.trans hfield), ih]
      | some v => rw [List.filterMap_cons_some (hsetting.trans hfield), List.head?_cons, Option.getD_some]
    · next hclass =>
      have hsetting : setting C "MinValidators" rule = none := if_neg hclass
      rw [List.filterMap_cons_none hsetting, ih]

/-- **The last rule counts** for `ExtractConsensusConfig`. -/
theorem extractConsensusConfig_minValidators (s : GenesisSpec) :
    (s.extractConsensusConfig C).minValidators = (settings C "MinValidators" s.mandate.rules).getLast?.getD 4 := by
  have hrule : ∀ cfg rule, (setting C "MinValidators" rule).getD cfg.minValidators =
      (ConsensusConfig.readRule C cfg rule).minValidators := by
    intro cfg rule
    unfold setting ConsensusConfig.readRule
    split
    · rfl
    · rfl
  rw [GenesisSpec.extractConsensusConfig, settings, ← foldl_getD_eq]
  exact (List.foldl_hom ConsensusConfig.minValidators hrule).symm

/-! ## The mandate of a chain -/

/-- What a specification says of a rule of the chain. -/
def ruleSpec (rule : Rule) : MandateRuleSpec := ⟨rule.eventClass, rule.fields⟩

/-- The rule of a specification, read as `GetConsensusConfig` does. -/
def readSpec (C : FloatConv) (cfg : UInt64 × UInt64) (rule : MandateRuleSpec) : UInt64 × UInt64 :=
  readMinimum C cfg rule.eventClass rule.fields

theorem readSpec_eq (cfg : ConsensusConfig) (rule : MandateRuleSpec) :
    readSpec C (cfg.minValidators, cfg.graceCycles) rule =
      ((ConsensusConfig.readRule C cfg rule).minValidators, (ConsensusConfig.readRule C cfg rule).graceCycles) := by
  unfold readSpec readMinimum ConsensusConfig.readRule
  split
  · rfl
  · rfl

/-- `GetConsensusConfig` reads the rules as `ExtractConsensusConfig` does. -/
theorem getConsensusConfig_eq {s : GenesisSpec} {m : MandateEntry} (hrules : m.rules.map ruleSpec = s.mandate.rules) :
    getConsensusConfig C m = ((s.extractConsensusConfig C).minValidators, (s.extractConsensusConfig C).graceCycles) := by
  have hread : getConsensusConfig C m = (m.rules.map ruleSpec).foldl (readSpec C) (4, 10) := by
    rw [List.foldl_map]
    rfl
  rw [hread, hrules]
  change s.mandate.rules.foldl (readSpec C) (ConsensusConfig.default.minValidators, ConsensusConfig.default.graceCycles) = _
  exact List.foldl_hom (fun cfg : ConsensusConfig => (cfg.minValidators, cfg.graceCycles)) readSpec_eq

/-! ## The minimum -/

theorem toNat_le_of_not_lt {n : Nat} {v : UInt64} (h : ¬ UInt64.ofNat n < v) : v.toNat ≤ n := by
  rw [UInt64.not_lt, UInt64.le_iff_toNat_le, UInt64.toNat_ofNat'] at h
  exact h.trans (Nat.mod_le _ _)

/-- **The validated and the enforced minimum.** An accepted specification has as many validators as its first rule asks for. It
has as many as `ExtractConsensusConfig` returns, and `GetConsensusConfig` returns the same, exactly if it has as many as its
last rule asks for. -/
theorem enforcedMinimum_iff {s : GenesisSpec} (hvalid : s.validate C = .ok ()) {m : MandateEntry}
    (hrules : m.rules.map ruleSpec = s.mandate.rules) :
    ((settings C "MinValidators" s.mandate.rules).head?.getD 4).toNat ≤ s.validators.length ∧
      (((s.extractConsensusConfig C).minValidators.toNat ≤ s.validators.length ∧
          (getConsensusConfig C m).1 = (s.extractConsensusConfig C).minValidators) ↔
        ((settings C "MinValidators" s.mandate.rules).getLast?.getD 4).toNat ≤ s.validators.length) := by
  constructor
  · rw [← getMinValidators_eq]
    exact toNat_le_of_not_lt (validate_ok_iff.1 hvalid).enough
  · rw [getConsensusConfig_eq hrules, extractConsensusConfig_minValidators]
    exact and_iff_left rfl

/-! ## Converted mandates -/

/-- The rules that are kept from version 1 say nothing about the consensus. -/
theorem readRule_kept {r : V1Rule} (h : r.eventClass = "release_gate" ∨ r.eventClass = "exception_grant")
    (cfg : ConsensusConfig) : ConsensusConfig.readRule C cfg r.toSpec = cfg := by
  have hclass : r.toSpec.eventClass ≠ consensusConfigClass := by
    change r.eventClass ≠ consensusConfigClass
    rcases h with h | h
    · rw [h]
      decide
    · rw [h]
      decide
  exact if_neg hclass

/-- The numbers of the default rules are no `float64`, but for the one that is the default. -/
theorem foldl_defaultRules : defaultRules.foldl (ConsensusConfig.readRule C) .default = .default := by
  rfl

theorem foldl_eq_self {α β : Type} {f : β → α → β} {b : β} {xs : List α} (h : ∀ x ∈ xs, f b x = b) : xs.foldl f b = b := by
  induction xs with
  | nil => rfl
  | cons x xs ih =>
    rw [List.foldl_cons, h x List.mem_cons_self]
    exact ih fun x hx => h x (List.mem_cons_of_mem _ hx)

/-- **Imported networks** run with the default parameters. -/
theorem extractConsensusConfig_import (snapshot : V1Snapshot) (now : Int64) :
    (importV1Snapshot snapshot now).extractConsensusConfig C = .default := by
  rw [GenesisSpec.extractConsensusConfig, importV1Snapshot, convertMandates, List.foldl_append, foldl_defaultRules]
  refine foldl_eq_self fun rule hrule => ?_
  obtain ⟨rules, -, hrule⟩ := List.mem_flatMap.1 hrule
  obtain ⟨r, -, hkept⟩ := List.mem_filterMap.1 hrule
  split at hkept
  · next hclass =>
    obtain rfl := Option.some.inj hkept
    exact readRule_kept hclass _
  · cases hkept

namespace Sample

open Gleipnir.Sample

/-- The mandate of a chain with the rules of a specification. -/
def mandateOf (rules : List MandateRuleSpec) : MandateEntry where
  id := Arr.zero 32
  authority := Arr.zero 16
  version := 1
  prevVersion := Arr.zero 32
  validFrom := 0
  validUntil := 0
  supersedes := Arr.zero 32
  rules := rules.map fun rule => ⟨rule.eventClass, "", 0, 0, 0, [], false, [], 0, rule.fields⟩
  policyHash := Arr.zero 32
  policyURI := []
  signature := []

theorem ruleSpec_mandateOf (rules : List MandateRuleSpec) : (mandateOf rules).rules.map ruleSpec = rules := by
  rw [mandateOf, List.map_map]
  exact List.map_id rules

/-- One rule that asks for one validator. -/
theorem one_rule_enforced : (network "ab" "cd" [minRule 1]).validate conv = .ok () ∧
    ((network "ab" "cd" [minRule 1]).extractConsensusConfig conv).minValidators.toNat ≤ 1 ∧
    (getConsensusConfig conv (mandateOf [minRule 1])).1 =
      ((network "ab" "cd" [minRule 1]).extractConsensusConfig conv).minValidators := by
  have hvalid : (network "ab" "cd" [minRule 1]).validate conv = .ok () := by decide
  have hrules : (mandateOf [minRule 1]).rules.map ruleSpec = (network "ab" "cd" [minRule 1]).mandate.rules :=
    ruleSpec_mandateOf _
  exact ⟨hvalid, (enforcedMinimum_iff hvalid hrules).2.2 (by decide)⟩

/-- A rule that asks for one validator before one that asks for five: one validator is accepted. -/
theorem later_rule_unchecked : (network "ab" "cd" [minRule 1, minRule 5]).validate conv = .ok () ∧
    (network "ab" "cd" [minRule 1, minRule 5]).validators.length = 1 ∧
    ((network "ab" "cd" [minRule 1, minRule 5]).extractConsensusConfig conv).minValidators = 5 ∧
    (getConsensusConfig conv (mandateOf [minRule 1, minRule 5])).1 = 5 := by
  decide

end Sample

end Gleipnir.Genesis
