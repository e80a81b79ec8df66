import Gleipnir.Lib.Quorum
import Gleipnir.LightClient.VerifySpec
import Gleipnir.Sample

/-!
# Two blocks accepted by light clients

Every mark of an accepted block stands for a trusted validator with a verifying signature (`Verified.signed_of_named`), and
there are as many marks as the quorum requires (`Verified.card_marked`). Over one list of validators two such quorums
overlap: `accepted_intersect`.
-/

namespace Gleipnir.LightClient

open Quorum

variable (X : Prims)

/-- The block has a signature of the validator that verifies under a key the anchor takes for active in the cycle. -/
def TrustAnchor.Signed (anchor : TrustAnchor) (cycle : UInt64) (block : Block) (id : RootID) : Prop :=
  ∃ sig ∈ block.prepareSigs, ∃ keys, (newKeyResolver X anchor).getActivePublicKey id cycle = some keys ∧
    ∃ pk ∈ keys, verifyDilithium X pk block.blockHash sig = true

/-- The validators that a block marks. -/
abbrev TrustAnchor.marked (anchor : TrustAnchor) (block : Block) : Finset RootID :=
  named (fun v : ValidatorInfo => v.validatorID) anchor.validators (bitSet block.prepareSigsBitmap)

variable {X} {anchor anchor' : TrustAnchor} {block block' : Block}

/-- A marked position has its signature in the payload, and belongs to a trusted validator who made it. -/
theorem Verified.position (h : Verified X anchor block) {i : Nat} (hi : bitSet block.prepareSigsBitmap i = true) :
    ∃ v, anchor.validators[i]? = some v ∧ anchor.Signed X block.index block v.validatorID := by
  have hsnd : (block.prepareSigs.zip (markedPositions block.prepareSigsBitmap)).map (·.2) =
      markedPositions block.prepareSigsBitmap := List.map_snd_zip h.paired.le
  have hmem := mem_markedPositions.2 hi
  rw [← hsnd] at hmem
  obtain ⟨⟨sig, j⟩, hx, rfl⟩ := List.mem_map.1 hmem
  obtain ⟨v, hv, hver⟩ := h.signed _ hx
  exact ⟨v, hv, sig, (List.of_mem_zip hx).1, (verifiesUnder_iff X).1 hver⟩

theorem Verified.signed_of_named (h : Verified X anchor block) {id : RootID} (hid : id ∈ anchor.marked block) :
    anchor.Signed X block.index block id := by
  obtain ⟨i, v, hv, hi, rfl⟩ := mem_named.1 hid
  obtain ⟨v', hv', hsigned⟩ := h.position hi
  rw [hv] at hv'
  cases hv'
  exact hsigned

/-- With distinct identities an accepted block marks a quorum. -/
theorem Verified.card_marked (h : Verified X anchor block) (hd : (anchor.validators.map (·.validatorID)).Nodup) :
    requiredQuorum anchor.validators.length ≤ (anchor.marked block).card := by
  have hsub : markedPositions block.prepareSigsBitmap ⊆
      (List.range anchor.validators.length).filter (bitSet block.prepareSigsBitmap) := by
    intro i hi
    obtain ⟨v, hv, -⟩ := h.position (mem_markedPositions.1 hi)
    exact List.mem_filter.2 ⟨List.mem_range.2 (List.getElem?_eq_some_iff.1 hv).1, mem_markedPositions.1 hi⟩
  calc requiredQuorum anchor.validators.length
      ≤ block.prepareSigs.length := h.quorum
    _ = (markedPositions block.prepareSigsBitmap).length := h.paired.symm
    _ ≤ ((List.range anchor.validators.length).filter (bitSet block.prepareSigsBitmap)).length :=
        (List.subperm_of_subset (nodup_markedPositions _) hsub).length_le
    _ = (anchor.marked block).card := by rw [← List.countP_eq_length_filter, card_named hd]

/-- Two quorums of `n` validators have a third of them in common. -/
theorem overlap_of_quorums {n a b c : Nat} (hn : degradedThreshold ≤ n) (ha : requiredQuorum n ≤ a)
    (hb : requiredQuorum n ≤ b) (hc : a + b ≤ n + c) : (n - 1) / 3 + 1 ≤ c := by
  have hq : requiredQuorum n = (2 * n + 2) / 3 := by
    rw [requiredQuorum, if_neg (by omega), normalQuorum, if_neg (by simp only [degradedThreshold] at hn; omega)]
  simp only [degradedThreshold] at hn
  omega

/-- **Quorum intersection.** If light clients that trust the same `N ≥ 4` validators, under whatever anchors, accept two
blocks of one index, then at least `⌊(N-1)/3⌋ + 1` of the validators have signed both, under keys active at the index. The
hashes need not even differ. -/
theorem accepted_intersect {validators : List ValidatorInfo} {index : UInt64} (hn : 4 ≤ validators.length)
    (hd : (validators.map (·.validatorID)).Nodup) (hv : anchor.validators = validators)
    (hv' : anchor'.validators = validators) (hindex : block.index = index) (hindex' : block'.index = index)
    (h : Accepts X anchor block) (h' : Accepts X anchor' block') :
    ∃ S : Finset RootID, (validators.length - 1) / 3 + 1 ≤ S.card ∧
      ∀ id ∈ S, (∃ v ∈ validators, v.validatorID = id) ∧
        anchor.Signed X index block id ∧ anchor'.Signed X index block' id := by
  have hver := (accepts_iff X).1 h
  have hver' := (accepts_iff X).1 h'
  have hcard := hver.card_marked (hv ▸ hd)
  have hcard' := hver'.card_marked (hv' ▸ hd)
  have hinter : (anchor.marked block).card + (anchor'.marked block').card ≤
      validators.length + (anchor.marked block ∩ anchor'.marked block').card := by
    simp only [TrustAnchor.marked, hv, hv']
    exact card_named_inter
  rw [hv] at hcard
  rw [hv'] at hcard'
  refine ⟨anchor.marked block ∩ anchor'.marked block', overlap_of_quorums hn hcard hcard' hinter, fun id hid => ?_⟩
  obtain ⟨hid, hid'⟩ := Finset.mem_inter.1 hid
  refine ⟨?_, hindex ▸ hver.signed_of_named hid, hindex' ▸ hver'.signed_of_named hid'⟩
  obtain ⟨i, v, hget, -, hname⟩ := mem_named.1 hid
  exact ⟨v, hv ▸ List.mem_of_getElem? hget, hname⟩

end Gleipnir.LightClient

namespace Gleipnir.Sample

open LightClient

/-- A client that has verified nothing yet and trusts four validators. -/
def anchor : TrustAnchor := ⟨0, none, [1, 2, 3, 4].map fun k => (peer k).validatorInfo, []⟩

/-- The first block, with the given entries and signatures. -/
def signedBlock (anchored : List ProvenanceEntry) (signers : List UInt8) (bitmap : Bytes) : Block :=
  let b := { bareBlock 0 1 anchored [] ⟨4, 3⟩ with validators := anchor.validators }
  let blockHash := computeBlockHash prims b
  { b with
    blockHash
    prepareSigsBitmap := bitmap
    prepareSigs := signers.map fun k => stamp k blockHash
    commitSig := stamp 1 blockHash }

/-- Two first blocks with different hashes are both accepted, and two validators have signed both. -/
theorem anchor_intersects :
    (signedBlock [] [1, 2, 3] [7]).blockHash ≠ (signedBlock [entry 9] [2, 3, 4] [14]).blockHash ∧
    ∃ S : Finset RootID, 2 ≤ S.card ∧ ∀ id ∈ S, (∃ v ∈ anchor.validators, v.validatorID = id) ∧
      anchor.Signed prims 0 (signedBlock [] [1, 2, 3] [7]) id ∧
      anchor.Signed prims 0 (signedBlock [entry 9] [2, 3, 4] [14]) id := by
  have h : Accepts prims anchor (signedBlock [] [1, 2, 3] [7]) := by
    unfold Accepts
    decide +kernel
  have h' : Accepts prims anchor (signedBlock [entry 9] [2, 3, 4] [14]) := by
    unfold Accepts
    decide +kernel
  have hindex : (signedBlock [] [1, 2, 3] [7]).index = 0 := by decide +kernel
  have hindex' : (signedBlock [entry 9] [2, 3, 4] [14]).index = 0 := by decide +kernel
  exact ⟨by decide +kernel, accepted_intersect (by decide +kernel) (by decide +kernel) rfl rfl hindex hindex' h h'⟩

end Gleipnir.Sample
