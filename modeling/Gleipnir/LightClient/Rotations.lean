import Gleipnir.LightClient.VerifySpec
import Gleipnir.Sample
import Gleipnir.Validation.KeyHistory

/-!
# The rotations of a light client

The client admits rotations by rules of its own (`Admissible`): it cannot know when a rotation was submitted, and leaves the
lead time out. A full node enforces the lead time, so what the node has accepted the client admits as well, and the two
histories stay the same.

* `admitRotation_ok_iff`: what the client admits.
* `sameHistory_step`, `sameHistory_run`: the client follows the node, rotation by rotation.
* `keysForCycle_eq`: the two have the same active keys.
-/

namespace Gleipnir.LightClient

open Guard KeyRotationValidator

variable (X : Prims)

/-! ## What the client admits -/

/-- What the client asks of a rotation whose submitter has the key `registered` and the given history. -/
structure Admissible (registered : Arr 1952) (history : List KeyRotationEntry) (r : KeyRotationEntry) : Prop where
  hash : r.verifyHash X = true
  signed : Signed X (keysFrom (r.effectiveCycle - 1) registered history) r
  overlap : r.effectiveCycle + rotationConfig.minKeyOverlap ≤ r.expiryCycle
  newer : Newer history r

theorem isEmpty_keysFrom (cycle : UInt64) (registered : Arr 1952) (history : List KeyRotationEntry) :
    (keysFrom cycle registered history).isEmpty = false := by
  rw [keysFrom_eq_keysAt, List.isEmpty_eq_false_iff]
  exact Handover.keysAt_ne_nil _ _

variable {v v' : KeyRotationValidator} {r : KeyRotationEntry}

/-- The rules one by one, as `admitRotation` goes through them. -/
theorem admitRotation_eq_ok :
    admitRotation X v r = .ok v' ↔ ∃ registered, v.validators.lookup r.submitter = some registered ∧ r.verifyHash X = true ∧
      Signed X (keysFrom (r.effectiveCycle - 1) registered (v.rotations r.submitter)) r ∧
      r.effectiveCycle + rotationConfig.minKeyOverlap ≤ r.expiryCycle ∧ v.recordRotation r = .ok v' := by
  unfold admitRotation Signed
  cases hreg : v.validators.lookup r.submitter with
  | none => simp [getActivePublicKey, hreg]
  | some registered =>
    cases hpay : r.payloadBytes X with
    | none => simp [getActivePublicKey, hreg, isEmpty_keysFrom]
    | some payload =>
      simp only [getActivePublicKey, hreg, Option.map_some, isEmpty_keysFrom, ↓throw_bind, ite_throw_eq_ok,
        Bool.not_eq_true', Bool.not_eq_false, List.any_eq_true, UInt64.not_lt, Option.some.injEq, exists_eq_left',
        Bool.false_eq_true, if_false, and_assoc]
      -- an error of `RecordRotation` is wrapped, a success is passed on
      cases v.recordRotation r with
      | error err => simp
      | ok w => simp

/-- **What `admitRotation` accepts.** -/
theorem admitRotation_ok_iff (hasc : AscendingCycles (v.rotations r.submitter)) :
    admitRotation X v r = .ok v' ↔ ∃ registered, v.validators.lookup r.submitter = some registered ∧
      Admissible X registered (v.rotations r.submitter) r ∧ v' = v.append r := by
  rw [admitRotation_eq_ok]
  refine exists_congr fun registered => and_congr_right fun _ => ?_
  rw [recordRotation_ok_iff hasc]
  constructor
  · rintro ⟨hhash, hsigned, hoverlap, hnewer, rfl⟩
    exact ⟨⟨hhash, hsigned, hoverlap, hnewer⟩, rfl⟩
  · rintro ⟨⟨hhash, hsigned, hoverlap, hnewer⟩, rfl⟩
    exact ⟨hhash, hsigned, hoverlap, hnewer, rfl⟩

/-! ## The client follows the node -/

/-- Two key histories over the same registered keys. -/
structure SameHistory (v w : KeyRotationValidator) : Prop where
  registered : ∀ id, v.validators.lookup id = w.validators.lookup id
  rotations : v.rotations = w.rotations

/-- The rotations a node accepts one after the other, each in its current cycle. -/
def acceptAll : KeyRotationValidator → List (UInt64 × KeyRotationEntry) → Except KeyRotationError KeyRotationValidator
  | v, [] => .ok v
  | v, (cycle, r) :: rest => do
    let v' ← (v.setCycle cycle).validateAndRecord X r
    acceptAll v' rest

/-- What a node accepts under the default configuration the client admits, unless the rule of the lead time overflows. -/
theorem admissible_of_rules {current : UInt64} {registered : Arr 1952} {history : List KeyRotationEntry}
    (hcycle : current.toNat + defaultConfig.keyRotationLeadTime.toNat < 2 ^ 64)
    (h : Rules X current defaultConfig registered history r) : Admissible X registered history r := by
  -- the lead time keeps the effective cycle off zero, so the cycle before it is the one the node asks about
  have hpos : r.effectiveCycle ≠ 0 := by
    rintro hzero
    have hlead := UInt64.le_iff_toNat_le.1 h.lead
    rw [UInt64.toNat_add, Nat.mod_eq_of_lt hcycle, hzero] at hlead
    have hten : defaultConfig.keyRotationLeadTime.toNat = 10 := by decide
    rw [hten] at hlead
    simp at hlead
  have hcycle : authorisingCycle r = r.effectiveCycle - 1 := if_neg hpos
  have hconfig : rotationConfig.minKeyOverlap = defaultConfig.minKeyOverlap := by decide
  refine ⟨h.hash, ?_, ?_, h.newer⟩
  · rw [← hcycle]
    exact h.signed
  · rw [hconfig]
    exact h.overlap

/-- One rotation: the client admits it, and both histories get it. -/
theorem sameHistory_step {w : KeyRotationValidator} {cycle : UInt64} (hcfg : v.cfg = defaultConfig)
    (hasc : ∀ id, AscendingCycles (v.rotations id)) (hsame : SameHistory v w)
    (hcycle : cycle.toNat + defaultConfig.keyRotationLeadTime.toNat < 2 ^ 64)
    (h : (v.setCycle cycle).validateAndRecord X r = .ok v') :
    v'.cfg = defaultConfig ∧ (∀ id, AscendingCycles (v'.rotations id)) ∧
      SameHistory v' (resolveRotation X w (some r)) := by
  have hasc' : AscendingCycles ((v.setCycle cycle).rotations r.submitter) := hasc _
  obtain ⟨registered, hreg, hrules, rfl⟩ := (validateAndRecord_ok_iff X hasc').1 h
  have hadmit : admitRotation X w r = .ok (w.append r) := by
    refine (admitRotation_ok_iff X (hsame.rotations ▸ hasc _)).2 ⟨registered, ?_, ?_, rfl⟩
    · rw [← hsame.registered]
      exact hreg
    · rw [← hsame.rotations]
      exact admissible_of_rules X hcycle (hcfg ▸ hrules)
  refine ⟨hcfg, ascending_append_rotations hasc hrules.newer, ?_⟩
  simp only [resolveRotation, hadmit]
  refine ⟨hsame.registered, ?_⟩
  funext id
  rw [append_rotations, append_rotations, ← hsame.rotations]
  rfl

/-- All of them. -/
theorem sameHistory_run : ∀ (accepted : List (UInt64 × KeyRotationEntry)) {v v' w : KeyRotationValidator},
    v.cfg = defaultConfig → (∀ id, AscendingCycles (v.rotations id)) → SameHistory v w →
    (∀ x ∈ accepted, x.1.toNat + defaultConfig.keyRotationLeadTime.toNat < 2 ^ 64) → acceptAll X v accepted = .ok v' →
    SameHistory v' ((accepted.map fun x => some x.2).foldl (resolveRotation X) w) := by
  intro accepted
  induction accepted with
  | nil =>
    intro v v' w _ _ hsame _ h
    obtain rfl := Except.ok.inj h
    exact hsame
  | cons x accepted ih =>
    intro v v' w hcfg hasc hsame hcycles h
    obtain ⟨v₁, hfirst, hrest⟩ := bind_eq_ok.1 h
    obtain ⟨hcfg₁, hasc₁, hsame₁⟩ := sameHistory_step X hcfg hasc hsame (hcycles x List.mem_cons_self) hfirst
    exact ih hcfg₁ hasc₁ hsame₁ (fun y hy => hcycles y (List.mem_cons_of_mem _ hy)) hrest

/-- **A light client and a full node agree on the keys**: a client that is given the registered keys of a node and the
rotations the node has accepted, in the order of their acceptance, has the node's active keys in every cycle. -/
theorem keysForCycle_eq {validators : List ValidatorInfo} {current : UInt64}
    {accepted : List (UInt64 × KeyRotationEntry)} {v : KeyRotationValidator} {anchor : TrustAnchor}
    (hcycles : ∀ x ∈ accepted, x.1.toNat + defaultConfig.keyRotationLeadTime.toNat < 2 ^ 64)
    (haccepted : acceptAll X (new validators current defaultConfig) accepted = .ok v)
    (hregistered : ∀ id, (validatorKeys anchor.validators).lookup id = (validatorKeys validators).lookup id)
    (hrotations : anchor.rotations = accepted.map fun x => some x.2) (id : RootID) (cycle : UInt64) :
    keysForCycle (newKeyResolver X anchor) cycle id = v.getActivePublicKey id cycle := by
  have hstart : SameHistory (new validators current defaultConfig) (new anchor.validators anchor.blockIndex rotationConfig) :=
    ⟨fun id => (hregistered id).symm, rfl⟩
  have hasc := (sound_new X validators current defaultConfig).ascending
  have hsame := sameHistory_run X accepted rfl hasc hstart hcycles haccepted
  rw [← hrotations] at hsame
  rw [keysForCycle_apply, getActivePublicKey, getActivePublicKey, hsame.registered, hsame.rotations]
  rfl

namespace Sample

open Gleipnir.Sample

/-- Two rotations that a node accepts, in the cycles `0` and `12`. -/
def accepted : List (UInt64 × KeyRotationEntry) := [(0, rotationTo 1 1 5 10 20), (12, rotationTo 1 5 6 30 40)]

/-- A client that has both. -/
def following : TrustAnchor := ⟨0, none, [info 1], accepted.map fun x => some x.2⟩

/-- In the window of the second rotation both of its keys are active, with the client as with the node. -/
theorem following_agrees : ∃ v, acceptAll prims (new [info 1] 0 defaultConfig) accepted = .ok v ∧
    v.getActivePublicKey (Arr.copy 16 [1]) 35 = some [Arr.copy 1952 [5], Arr.copy 1952 [6]] := by
  have haccepted : (acceptAll prims (new [info 1] 0 defaultConfig) accepted).toOption.isSome = true := by decide +kernel
  cases h : acceptAll prims (new [info 1] 0 defaultConfig) accepted with
  | error err =>
    rw [h] at haccepted
    cases haccepted
  | ok v =>
    have hrotations : following.rotations = accepted.map fun x => some x.2 := rfl
    have hagree := keysForCycle_eq prims (by decide +kernel) h (fun _ => rfl) hrotations (Arr.copy 16 [1]) 35
    refine ⟨v, rfl, hagree.symm.trans ?_⟩
    decide +kernel

end Sample

end Gleipnir.LightClient
