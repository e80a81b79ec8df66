import Gleipnir.LightClient.Intersection

/-!
# The positions a light client indexes with

`bitmapSigners` reads positions off a bitmap of any length and leaves it to its caller to bound them. `VerifyBlock` does not:
it uses each as an index into the trusted validators. The positions are ascending, so the signatures of the positions that
exist come first, and a single one that does not verify ends the loop in time. `verifyBlock_done_iff` says which blocks get
past it.
-/

namespace Gleipnir.LightClient

open Atomic

variable (X : Prims)

/-- A block that passes every check before the signatures. -/
structure ReachesSignatures (anchor : TrustAnchor) (block : Block) : Prop where
  version : block.protocolVersion = 2
  trusting : anchor.validators ≠ []
  linked : checkLinkage block anchor = .ok ()
  declared : checkValidatorSet block.validators anchor.validators = .ok ()
  hash : computeBlockHash X block = block.blockHash
  proposer : ∃ v ∈ anchor.validators, v.validatorID = block.proposer
  paired : (markedPositions block.prepareSigsBitmap).length = block.prepareSigs.length
  announced : anchor.validators.length < degradedThreshold → isDegradedBlock block = true
  quorum : requiredQuorum anchor.validators.length ≤ block.prepareSigs.length

/-- Each signature that is attributed to a trusted validator is by that validator. -/
def ValidInRange (anchor : TrustAnchor) (block : Block) : Prop :=
  ∀ x ∈ block.prepareSigs.zip (markedPositions block.prepareSigsBitmap), ∀ v, anchor.validators[x.2]? = some v →
    verifiesUnder X (anchor.keys X block.index) v.validatorID block.blockHash x.1 = true

/-- The bitmap marks trusted validators only. -/
def MarksInRange (anchor : TrustAnchor) (block : Block) : Prop :=
  ∀ i, bitSet block.prepareSigsBitmap i = true → i < anchor.validators.length

/-- The checks before the signatures, in terms of the positions they leave. -/
theorem checkContents_ok {anchor : TrustAnchor} {block : Block} {signers : List Nat} :
    checkContents X block anchor = .ok signers ↔
      ReachesSignatures X anchor block ∧ signers = markedPositions block.prepareSigsBitmap := by
  rw [checkContents_ok_iff]
  constructor
  · rintro ⟨h₁, h₂, h₃, h₄, h₅, h₆, ⟨rfl, hlen⟩, h₇, h₈⟩
    exact ⟨⟨h₁, h₂, h₃, h₄, h₅, h₆, hlen, h₇, hlen ▸ h₈⟩, rfl⟩
  · rintro ⟨h, rfl⟩
    exact ⟨h.version, h.trusting, h.linked, h.declared, h.hash, h.proposer, ⟨rfl, h.paired⟩, h.announced,
      h.paired ▸ h.quorum⟩

theorem ascending_markedPositions (bitmap : Bytes) : (markedPositions bitmap).Pairwise (· < ·) :=
  List.pairwise_lt_range.filter _

/-- The loop over ascending positions leaves the validators when all signatures before the first position past the end
verify. -/
theorem creditSigs_panic_iff {keys : RootID → Option (List (Arr 1952))} {validators : List ValidatorInfo} {hash : Bytes}
    {sigs : List (Bytes × Nat)} : ∀ {credited : List Nat} {distinct : Nat},
      (sigs.map (·.2)).Pairwise (· < ·) → (∀ x ∈ sigs, x.2 ∉ credited) →
      (creditSigs X keys validators hash sigs credited distinct = .panic ↔
        (∃ x ∈ sigs, validators.length ≤ x.2) ∧
          ∀ x ∈ sigs, ∀ v, validators[x.2]? = some v → verifiesUnder X keys v.validatorID hash x.1 = true) := by
  induction sigs with
  | nil =>
    intro credited distinct _ _
    simp [creditSigs]
  | cons first sigs ih =>
    intro credited distinct hasc hfresh
    obtain ⟨sig, claimed⟩ := first
    obtain ⟨hfirst, hasc⟩ := List.pairwise_cons.1 hasc
    have hafter : ∀ x ∈ sigs, claimed < x.2 := fun x hx => hfirst x.2 (List.mem_map.2 ⟨x, hx, rfl⟩)
    have hclaimed : claimed ∉ credited := hfresh _ List.mem_cons_self
    have hfresh' := fresh_cons (fun x hx => (hafter x hx).ne') hfresh
    unfold creditSigs
    simp only [List.exists_mem_cons_iff, List.forall_mem_cons]
    cases hv : validators[claimed]? with
    | none =>
      -- the positions after this one are past the end as well
      have hlen := List.getElem?_eq_none_iff.1 hv
      have hnone : ∀ x ∈ sigs, validators[x.2]? = none := fun x hx =>
        List.getElem?_eq_none (hlen.trans (hafter x hx).le)
      simp only [true_iff]
      refine ⟨.inl hlen, fun v hv' => ?_, fun x hx v hv' => ?_⟩
      · cases hv'
      · rw [hnone x hx] at hv'
        cases hv'
    | some v =>
      have hlen := not_le.2 (List.getElem?_eq_some_iff.1 hv).1
      cases hver : verifiesUnder X keys v.validatorID hash sig with
      | false => simp [hver]
      | true => simp [hver, hclaimed, hlen, ih hasc hfresh']

/-- Where the loop of a block that reaches it leaves the validators. -/
theorem creditSigs_block {anchor : TrustAnchor} {block : Block} (h : ReachesSignatures X anchor block) :
    creditSigs X (anchor.keys X block.index) anchor.validators block.blockHash
        (block.prepareSigs.zip (markedPositions block.prepareSigsBitmap)) [] 0 = .panic ↔
      ¬ MarksInRange anchor block ∧ ValidInRange X anchor block := by
  have hsnd : (block.prepareSigs.zip (markedPositions block.prepareSigsBitmap)).map (·.2) =
      markedPositions block.prepareSigsBitmap := List.map_snd_zip h.paired.le
  have hasc : ((block.prepareSigs.zip (markedPositions block.prepareSigsBitmap)).map (·.2)).Pairwise (· < ·) := by
    rw [hsnd]
    exact ascending_markedPositions _
  rw [creditSigs_panic_iff X hasc fun _ _ => List.not_mem_nil]
  refine and_congr_left fun _ => ?_
  constructor
  · rintro ⟨x, hx, hlen⟩ hmarks
    have hmem : x.2 ∈ markedPositions block.prepareSigsBitmap := (List.of_mem_zip hx).2
    exact absurd (hmarks x.2 (mem_markedPositions.1 hmem)) (not_lt.2 hlen)
  · intro hmarks
    obtain ⟨i, hi, hlen⟩ : ∃ i, bitSet block.prepareSigsBitmap i = true ∧ anchor.validators.length ≤ i := by
      simpa [MarksInRange] using hmarks
    -- a marked position has a signature
    obtain ⟨x, hx, rfl⟩ := List.mem_map.1 (hsnd ▸ mem_markedPositions.2 hi)
    exact ⟨x, hx, hlen⟩

/-- **The bound on the positions**: the verification returns for a block and an anchor, with no index out of range, exactly
when a block that reaches the signatures, and whose signatures attributed to trusted validators are all valid, marks
trusted validators only. -/
theorem verifyBlock_done_iff (block : Option Block) (anchor : TrustAnchor) :
    (∃ result, verifyBlock X block anchor = .done result) ↔
      ∀ b, block = some b → ReachesSignatures X anchor b → ValidInRange X anchor b → MarksInRange anchor b := by
  cases block with
  | none => simp [verifyBlock]
  | some block =>
    simp only [Option.some.injEq, forall_eq']
    cases hcontents : checkContents X block anchor with
    | error err =>
      have hnot : ¬ ReachesSignatures X anchor block := by
        intro h
        have hok := (checkContents_ok X).2 ⟨h, rfl⟩
        rw [hcontents] at hok
        cases hok
      simp [verifyBlock, hcontents, hnot]
    | ok signers =>
      obtain ⟨hreaches, rfl⟩ := (checkContents_ok X).1 hcontents
      have hpanic := creditSigs_block X hreaches
      simp only [verifyBlock, hcontents]
      cases hcredit : creditSigs X (anchor.keys X block.index) anchor.validators block.blockHash
          (block.prepareSigs.zip (markedPositions block.prepareSigsBitmap)) [] 0 with
      | panic =>
        obtain ⟨hmarks, hvalid⟩ := hpanic.1 hcredit
        simp [hreaches, hmarks, hvalid]
      | done result =>
        rw [hcredit] at hpanic
        have hsafe : ReachesSignatures X anchor block → ValidInRange X anchor block → MarksInRange anchor block := by
          intro _ hvalid
          by_contra hmarks
          cases hpanic.2 ⟨hmarks, hvalid⟩
        cases result with
        | error err => simpa using hsafe
        | ok distinct => simpa using hsafe

end Gleipnir.LightClient

namespace Gleipnir.Sample

open LightClient

/-- A quorum of valid signatures, and a mark on a ninth validator where there are four. -/
theorem marked_past_end : ¬ ∃ result, verifyBlock prims (some (signedBlock [] [1, 2, 3, 4] [7, 1])) anchor = .done result := by
  have hpanic : verifyBlock prims (some (signedBlock [] [1, 2, 3, 4] [7, 1])) anchor = .panic := by decide +kernel
  rw [hpanic]
  exact nofun

end Gleipnir.Sample
