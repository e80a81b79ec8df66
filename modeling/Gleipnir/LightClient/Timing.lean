import Gleipnir.LightClient.Rotations

/-!
# The timing of rotations over the integers

The lead time and the overlap of a rotation are sums of `uint64` values, which `Validate` and `admitRotation` compute modulo
`2 ^ 64`. A bound that has wrapped around is small, and then the comparison with it says nothing. `timing_iff`: what the two
accept keeps the rules over the integers exactly if the sums fit.
-/

namespace Gleipnir.LightClient

open KeyRotationValidator

variable (X : Prims)

/-- The rotation takes effect `lead` cycles after `current` or later. -/
def Leads (current lead : UInt64) (r : KeyRotationEntry) : Prop := current.toNat + lead.toNat ≤ r.effectiveCycle.toNat

/-- The rotation keeps the outgoing key for `overlap` cycles or longer. -/
def Overlaps (overlap : UInt64) (r : KeyRotationEntry) : Prop := r.effectiveCycle.toNat + overlap.toNat ≤ r.expiryCycle.toNat

/-- `SignatureOld` verifies under a key that is active in the cycle before the rotation, in cycle `0` if there is none. -/
def SignedByActive (v : KeyRotationValidator) (r : KeyRotationEntry) : Prop :=
  ∃ keys payload, v.getActivePublicKey r.submitter (authorisingCycle r) = some keys ∧ r.payloadBytes X = some payload ∧
    ∃ pk ∈ keys, verifyDilithium X pk payload r.signatureOld = true

/-- The sum fits its 64 bits. -/
def Fits (a b : UInt64) : Prop := a.toNat + b.toNat < 2 ^ 64

/-- A bound that was met modulo `2 ^ 64` is met over the integers exactly if it fits. -/
theorem sum_le_iff {a b c : UInt64} (h : a + b ≤ c) : a.toNat + b.toNat ≤ c.toNat ↔ Fits a b := by
  constructor
  · exact fun hle => lt_of_le_of_lt hle c.toNat_lt
  · intro hfits
    rw [UInt64.le_iff_toNat_le, UInt64.toNat_add, Nat.mod_eq_of_lt hfits] at h
    exact h

variable {X}

/-- The cycle before the first is looked up as the last one. A rotation from cycle `0` is only recorded into an empty history,
where every cycle has the same keys. -/
theorem keysFrom_before {registered : Arr 1952} {history : List KeyRotationEntry} {r : KeyRotationEntry} (h : Newer history r) :
    keysFrom (r.effectiveCycle - 1) registered history = keysFrom (authorisingCycle r) registered history := by
  by_cases hzero : r.effectiveCycle = 0
  · rcases List.eq_nil_or_concat history with rfl | ⟨before, last, rfl⟩
    · rfl
    · have hlast := h last (by simp)
      rw [hzero] at hlast
      exact absurd hlast UInt64.not_lt_zero
  · rw [authorisingCycle, if_neg hzero]

/-- What the client admits is signed under an active key. -/
theorem signedByActive_of_admitRotation {v v' : KeyRotationValidator} {r : KeyRotationEntry} (h : admitRotation X v r = .ok v') :
    SignedByActive X v r := by
  obtain ⟨registered, hreg, -, ⟨payload, hpay, hold, -⟩, -, hrecord⟩ := (admitRotation_eq_ok X).1 h
  rw [keysFrom_before (newer_of_recordRotation hrecord)] at hold
  exact ⟨_, payload, by rw [getActivePublicKey, hreg]; rfl, hpay, hold⟩

/-- **Timing rules.** Whatever the configuration, the cycle and the fields of a rotation: if `Validate` accepts it, then it keeps
the lead time and the overlap over the integers exactly if both sums fit their 64 bits; if `admitRotation` accepts it, then it
keeps the overlap, and is signed under a key active before it, exactly if the sum fits. -/
theorem timing_iff :
    (∀ (v : KeyRotationValidator) (r : KeyRotationEntry), v.validate X r = .ok () →
      (Leads v.currentCycle v.cfg.keyRotationLeadTime r ∧ Overlaps v.cfg.minKeyOverlap r ↔
        Fits v.currentCycle v.cfg.keyRotationLeadTime ∧ Fits r.effectiveCycle v.cfg.minKeyOverlap)) ∧
    ∀ (v v' : KeyRotationValidator) (r : KeyRotationEntry), admitRotation X v r = .ok v' →
      (Overlaps rotationConfig.minKeyOverlap r ∧ SignedByActive X v r ↔
        Fits r.effectiveCycle rotationConfig.minKeyOverlap) := by
  refine ⟨fun v r h => ?_, fun v v' r h => ?_⟩
  · obtain ⟨registered, -, hrules⟩ := (validate_ok_iff X).1 h
    exact and_congr (sum_le_iff hrules.lead) (sum_le_iff hrules.overlap)
  · obtain ⟨-, -, -, -, hoverlap, -⟩ := (admitRotation_eq_ok X).1 h
    rw [and_iff_left (signedByActive_of_admitRotation h)]
    exact sum_le_iff hoverlap

namespace Sample

open Gleipnir.Sample

/-- A node and a client that know the first validator. -/
def keeper : KeyRotationValidator := .new [info 1] 0 defaultConfig

/-- A rotation with room for its overlap, and one that takes effect in the last cycle and expires long before. -/
def timely : KeyRotationEntry := rotationTo 1 1 5 10 20

def wrapping : KeyRotationEntry := rotationTo 1 1 5 18446744073709551615 100

/-- Both are accepted by the node and by the client. -/
def timingReads : List Bool :=
  [timely, wrapping].flatMap fun r => [(keeper.validate prims r).toBool, (admitRotation prims keeper r).toBool]

def timingHas : Computed timingReads fun x => x = [true, true, true, true] := computed _ (by decide +kernel)

theorem both_accepted : ∀ r ∈ [timely, wrapping], keeper.validate prims r = .ok () ∧ ∃ v', admitRotation prims keeper r = .ok v' := by
  obtain ⟨x, hx, hall⟩ := timingHas
  have htrue : ∀ r ∈ [timely, wrapping], (keeper.validate prims r).toBool = true ∧ (admitRotation prims keeper r).toBool = true := by
    intro r hr
    have hmem : ∀ b ∈ timingReads, b = true := by
      rw [← hx, hall]
      decide
    exact ⟨hmem _ (List.mem_flatMap.2 ⟨r, hr, List.mem_cons_self⟩),
      hmem _ (List.mem_flatMap.2 ⟨r, hr, List.mem_cons_of_mem _ List.mem_cons_self⟩)⟩
  intro r hr
  obtain ⟨hvalid, hadmit⟩ := htrue r hr
  constructor
  · cases h : keeper.validate prims r with
    | ok => rfl
    | error err =>
      rw [h] at hvalid
      cases hvalid
  · cases h : admitRotation prims keeper r with
    | ok v' => exact ⟨v', rfl⟩
    | error err =>
      rw [h] at hadmit
      cases hadmit

theorem rotationTo_cycles (k old new : UInt8) (effective expiry : UInt64) :
    (rotationTo k old new effective expiry).effectiveCycle = effective ∧
      (rotationTo k old new effective expiry).expiryCycle = expiry := ⟨rfl, rfl⟩

/-- The timely rotation keeps the rules. -/
theorem timely_keeps : Leads keeper.currentCycle keeper.cfg.keyRotationLeadTime timely ∧ Overlaps keeper.cfg.minKeyOverlap timely := by
  have haccepted := (both_accepted timely List.mem_cons_self).1
  have heffective : timely.effectiveCycle = 10 := (rotationTo_cycles 1 1 5 10 20).1
  refine (timing_iff.1 keeper timely haccepted).2 ⟨?_, ?_⟩
  · change (0 : UInt64).toNat + (10 : UInt64).toNat < 2 ^ 64
    decide
  · rw [heffective]
    change (10 : UInt64).toNat + (10 : UInt64).toNat < 2 ^ 64
    decide

/-- The wrapping one is accepted by both, and breaks the overlap. -/
theorem wrapping_accepted : ∃ v r, v.validate prims r = .ok () ∧ (∃ v', admitRotation prims v r = .ok v') ∧
    ¬ Overlaps v.cfg.minKeyOverlap r ∧ ¬ Overlaps rotationConfig.minKeyOverlap r := by
  obtain ⟨hvalid, hadmit⟩ := both_accepted wrapping (List.mem_cons_of_mem _ List.mem_cons_self)
  have hbreaks : ¬ Overlaps 10 wrapping := by
    unfold Overlaps wrapping
    rw [(rotationTo_cycles 1 1 5 18446744073709551615 100).1, (rotationTo_cycles 1 1 5 18446744073709551615 100).2]
    decide
  exact ⟨keeper, wrapping, hvalid, hadmit, hbreaks, hbreaks⟩

end Sample

end Gleipnir.LightClient
