import Gleipnir.Lib.Guard
import Gleipnir.LightClient.Verify

/-!
# What the light client accepts

`accepts_iff` says what `VerifyBlock` checks, all of it (`Verified`). The positions of a bitmap are distinct, so that no
validator is credited twice (`creditSigs_ok_iff`), and a signature is credited only under a key that is active for its
validator.
-/

namespace Gleipnir.LightClient

open Atomic Guard

variable (X : Prims)

/-- The keys a client takes for active in a cycle. -/
abbrev TrustAnchor.keys (anchor : TrustAnchor) (cycle : UInt64) : RootID → Option (List (Arr 1952)) :=
  keysForCycle (newKeyResolver X anchor) cycle

/-- What a client has established about a block it accepts. -/
structure Verified (anchor : TrustAnchor) (block : Block) : Prop where
  version : block.protocolVersion = 2
  trusting : anchor.validators ≠ []
  linked : checkLinkage block anchor = .ok ()
  declared : checkValidatorSet block.validators anchor.validators = .ok ()
  hash : computeBlockHash X block = block.blockHash
  proposer : ∃ v ∈ anchor.validators, v.validatorID = block.proposer
  paired : (markedPositions block.prepareSigsBitmap).length = block.prepareSigs.length
  announced : anchor.validators.length < degradedThreshold → isDegradedBlock block = true
  quorum : requiredQuorum anchor.validators.length ≤ block.prepareSigs.length
  signed : ∀ x ∈ block.prepareSigs.zip (markedPositions block.prepareSigsBitmap),
    ∃ v, anchor.validators[x.2]? = some v ∧
      verifiesUnder X (anchor.keys X block.index) v.validatorID block.blockHash x.1 = true
  committed : verifiesUnder X (anchor.keys X block.index) block.proposer block.blockHash block.commitSig = true

/-! ## Keys -/

/-- The map of the active keys has what `GetActivePublicKey` returns. -/
theorem keysForCycle_apply (v : KeyRotationValidator) (cycle : UInt64) (id : RootID) :
    keysForCycle v cycle id = v.getActivePublicKey id cycle := by
  unfold keysForCycle
  split
  · rfl
  · next hid =>
    have hnone : v.validators.lookup id = none := AList.lookup_eq_none.2 hid
    rw [KeyRotationValidator.getActivePublicKey, hnone]
    rfl

variable {id : RootID} {block : Block} {signers : List Nat} {validators : List ValidatorInfo} {anchor : TrustAnchor}
  {keys : RootID → Option (List (Arr 1952))}

theorem verifiesUnder_iff {v : KeyRotationValidator} {cycle : UInt64} {msg sig : Bytes} :
    verifiesUnder X (keysForCycle v cycle) id msg sig = true ↔
      ∃ keys, v.getActivePublicKey id cycle = some keys ∧ ∃ pk ∈ keys, verifyDilithium X pk msg sig = true := by
  rw [verifiesUnder, keysForCycle_apply]
  cases v.getActivePublicKey id cycle with
  | none => simp
  | some keys => simp

/-! ## The checks -/

theorem nodup_markedPositions (bitmap : Bytes) : (markedPositions bitmap).Nodup := List.nodup_range.filter _

theorem mem_markedPositions {bitmap : Bytes} {i : Nat} : i ∈ markedPositions bitmap ↔ bitSet bitmap i = true := by
  simp only [markedPositions, List.mem_filter, List.mem_range, and_iff_right_iff_imp]
  intro h
  -- a bit past the end is not set
  by_contra hlen
  have hnone : bitmap[i / 8]? = none := List.getElem?_eq_none (by omega)
  simp [bitSet, hnone] at h

theorem bitmapSigners_ok_iff : bitmapSigners block = .ok signers ↔
    signers = markedPositions block.prepareSigsBitmap ∧ signers.length = block.prepareSigs.length := by
  simp only [bitmapSigners]
  split
  · next hne =>
    refine ⟨nofun, ?_⟩
    rintro ⟨rfl, hlen⟩
    exact absurd hlen hne
  · next hlen =>
    constructor
    · intro h
      obtain rfl := Except.ok.inj h
      exact ⟨rfl, not_not.1 hlen⟩
    · rintro ⟨rfl, -⟩
      rfl

theorem indexOf_isNone : ¬ (indexOf validators id).isNone = true ↔ ∃ v ∈ validators, v.validatorID = id := by
  simp [indexOf]

theorem checkContents_ok_iff :
    checkContents X block anchor = .ok signers ↔
      block.protocolVersion = 2 ∧ anchor.validators ≠ [] ∧ checkLinkage block anchor = .ok () ∧
        checkValidatorSet block.validators anchor.validators = .ok () ∧ computeBlockHash X block = block.blockHash ∧
        (∃ v ∈ anchor.validators, v.validatorID = block.proposer) ∧
        (signers = markedPositions block.prepareSigsBitmap ∧ signers.length = block.prepareSigs.length) ∧
        (anchor.validators.length < degradedThreshold → isDegradedBlock block = true) ∧
        requiredQuorum anchor.validators.length ≤ signers.length := by
  unfold checkContents
  simp only [↓throw_bind, ite_throw_eq_ok, bind_eq_ok, pure_eq_ok, bitmapSigners_ok_iff, indexOf_isNone, not_not,
    not_and, not_lt, List.isEmpty_iff, Bool.not_eq_true', Bool.not_eq_false]
  constructor
  · rintro ⟨h₁, h₂, _, h₃, _, h₄, h₅, h₆, _, h₇, h₈, h₉, rfl⟩
    exact ⟨h₁, h₂, h₃, h₄, h₅, h₆, h₇, h₈, h₉⟩
  · rintro ⟨h₁, h₂, h₃, h₄, h₅, h₆, h₇, h₈, h₉⟩
    exact ⟨h₁, h₂, _, h₃, _, h₄, h₅, h₆, _, h₇, h₈, h₉, rfl⟩

/-- After a position is credited the positions that follow are still fresh. -/
theorem fresh_cons {sig : Bytes} {claimed : Nat} {sigs : List (Bytes × Nat)} {credited : List Nat}
    (hne : ∀ x ∈ sigs, x.2 ≠ claimed) (hfresh : ∀ x ∈ (sig, claimed) :: sigs, x.2 ∉ credited) :
    ∀ x ∈ sigs, x.2 ∉ claimed :: credited := by
  intro x hx hmem
  rcases List.mem_cons.1 hmem with heq | hmem
  · exact hne x hx heq
  · exact hfresh x (List.mem_cons_of_mem _ hx) hmem

/-- The loop over distinct positions credits every signature, provided that each verifies for its position. -/
theorem creditSigs_ok_iff {hash : Bytes} {n : Nat} : ∀ {sigs : List (Bytes × Nat)} {credited : List Nat} {distinct : Nat},
      (sigs.map (·.2)).Nodup → (∀ x ∈ sigs, x.2 ∉ credited) →
      (creditSigs X keys validators hash sigs credited distinct = .done (.ok n) ↔
        n = distinct + sigs.length ∧ ∀ x ∈ sigs, ∃ v, validators[x.2]? = some v ∧
          verifiesUnder X keys v.validatorID hash x.1 = true)
  | [], credited, distinct, _, _ => by
    simp only [creditSigs, Exit.done.injEq, Except.ok.injEq, List.length_nil, Nat.add_zero, List.not_mem_nil]
    exact ⟨fun h => ⟨h.symm, nofun⟩, fun h => h.1.symm⟩
  | (sig, claimed) :: sigs, credited, distinct, hnodup, hfresh => by
    obtain ⟨hnot, hnodup⟩ := List.nodup_cons.1 hnodup
    have hfresh' := fresh_cons (fun x hx heq => hnot (List.mem_map.2 ⟨x, hx, heq⟩)) hfresh
    have hclaimed : claimed ∉ credited := hfresh _ List.mem_cons_self
    simp only [List.forall_mem_cons, List.length_cons]
    unfold creditSigs
    cases hv : validators[claimed]? with
    | none => simp
    | some v =>
      cases hver : verifiesUnder X keys v.validatorID hash sig with
      | false => simp [hver]
      | true =>
        simp only [hver, Bool.not_true, Bool.false_eq_true, if_false, hclaimed, creditSigs_ok_iff hnodup hfresh']
        constructor
        · rintro ⟨rfl, hall⟩
          exact ⟨by omega, ⟨v, rfl, hver⟩, hall⟩
        · rintro ⟨rfl, -, hall⟩
          exact ⟨by omega, hall⟩

theorem checkCommit_ok_iff {required distinct : Nat} :
    checkCommit X keys block required distinct = .ok () ↔
      required ≤ distinct ∧ verifiesUnder X keys block.proposer block.blockHash block.commitSig = true := by
  unfold checkCommit
  simp only [↓throw_bind, ite_throw_eq_ok, not_lt]
  cases hkeys : keys block.proposer with
  | none => simp [verifiesUnder, hkeys]
  | some pks => simp

/-! ## The verification -/

/-- The positions that the signatures are attributed to are distinct. -/
theorem nodup_attributed (block : Block)
    (hlen : (markedPositions block.prepareSigsBitmap).length = block.prepareSigs.length) :
    ((block.prepareSigs.zip (markedPositions block.prepareSigsBitmap)).map (·.2)).Nodup := by
  have hsnd : (block.prepareSigs.zip (markedPositions block.prepareSigsBitmap)).map (·.2) =
      markedPositions block.prepareSigsBitmap := List.map_snd_zip hlen.le
  rw [hsnd]
  exact nodup_markedPositions _

/-- **What `VerifyBlock` accepts.** -/
theorem accepts_iff : Accepts X anchor block ↔ Verified X anchor block := by
  have hzip : ∀ hlen : (markedPositions block.prepareSigsBitmap).length = block.prepareSigs.length,
      0 + (block.prepareSigs.zip (markedPositions block.prepareSigsBitmap)).length = block.prepareSigs.length := by
    intro hlen
    rw [List.length_zip, hlen]
    omega
  unfold Accepts
  constructor
  · intro h
    simp only [verifyBlock] at h
    split at h
    · cases h
    · next signers hcontents =>
      obtain ⟨hversion, htrust, hlink, hset, hhash, hproposer, ⟨rfl, hlen⟩, hann, -⟩ :=
        (checkContents_ok_iff X).1 hcontents
      split at h
      · cases h
      · cases h
      · next distinct hcount =>
        obtain ⟨rfl, hsigned⟩ :=
          (creditSigs_ok_iff X (nodup_attributed block hlen) fun _ _ => List.not_mem_nil).1 hcount
        obtain ⟨hquorum, hcommit⟩ := (checkCommit_ok_iff X).1 (Exit.done.inj h)
        rw [hzip hlen] at hquorum
        exact ⟨hversion, htrust, hlink, hset, hhash, hproposer, hlen, hann, hquorum, hsigned, hcommit⟩
  · intro h
    have hcontents := (checkContents_ok_iff X).2 ⟨h.version, h.trusting, h.linked, h.declared, h.hash, h.proposer,
      ⟨rfl, h.paired⟩, h.announced, h.paired ▸ h.quorum⟩
    have hcount :=
      (creditSigs_ok_iff X (nodup_attributed block h.paired) fun _ _ => List.not_mem_nil).2
        ⟨(hzip h.paired).symm, h.signed⟩
    have hcommit := (checkCommit_ok_iff X).2 ⟨h.quorum, h.committed⟩
    simp only [verifyBlock, hcontents, hcount, hcommit]

end Gleipnir.LightClient
