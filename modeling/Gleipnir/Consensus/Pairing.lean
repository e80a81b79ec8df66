import Gleipnir.Consensus.Certificate
import Gleipnir.Consensus.CommitQuorum
import Gleipnir.LightClient.VerifySpec

/-!
# What a certificate is read as

`verifyPrepareQuorum` takes for the signature of a marked peer the one whose index is the number of marks before it; the
light client takes the signatures and the marked positions in pairs. `countVerified_eq` and `creditSigs_eq` separate this
reading from the verification of what was read; `certificate_decodes` says that over the order of the leader both give back
the signatures that were collected.
-/

namespace Gleipnir

open Attribution LightClient

variable (X : Prims)

/-! ## Reading and verifying -/

/-- The pairs that `verifyPrepareQuorum` looks at; `none` when a mark has no signature. -/
def Engine.pairsByRank (e : Engine) (block : Block) : Option (List (Peer × Bytes)) :=
  byRank (bitSet block.prepareSigsBitmap) block.prepareSigs e.peers.zipIdx

/-- The pairs that the light client looks at; `none` when a signature is attributed to no validator. -/
def LightClient.pairsBySigner (validators : List ValidatorInfo) (block : Block) (signers : List Nat) :
    Option (List (ValidatorInfo × Bytes)) := byPosition validators (block.prepareSigs.zip signers)

/-- The loop of `verifyPrepareQuorum` verifies the pairs it reads. -/
theorem countVerified_eq {e : Engine} {cycle : UInt64} {block : Block} (ps : List (Peer × Nat)) (n : Nat) :
    e.countVerified X cycle block ps n =
      (byRank (bitSet block.prepareSigsBitmap) block.prepareSigs ps).bind fun pairs =>
        if pairs.all fun x => e.verifySignatureWithOverlap X x.1.uid.rootID block.blockHash x.2 cycle then
          some (n + pairs.length)
        else none := by
  induction ps generalizing n with
  | nil => simp [Engine.countVerified, byRank]
  | cons x ps ih =>
    obtain ⟨p, i⟩ := x
    rw [Engine.countVerified, byRank, countBitsBefore, ← rank]
    cases hb : bitSet block.prepareSigsBitmap i with
    | false => simpa using ih n
    | true =>
      cases hsig : block.prepareSigs[rank (bitSet block.prepareSigsBitmap) i]? with
      | none => simp
      | some sig =>
        cases hread : byRank (bitSet block.prepareSigsBitmap) block.prepareSigs ps with
        | none => simp [ih, hread]
        | some pairs =>
          cases hv : e.verifySignatureWithOverlap X p.uid.rootID block.blockHash sig cycle with
          | false => simp [hv]
          | true =>
            simp only [Bool.not_true, Bool.false_eq_true, if_false, if_true, hv, ih, hread, Option.map_some, Option.bind_some]
            rw [List.all_cons, hv, Bool.true_and, List.length_cons, Nat.add_right_comm, Nat.add_assoc]

/-- The loop of the light client, over distinct positions, verifies the pairs it reads. -/
theorem creditSigs_eq {keys : RootID → Option (List (Arr 1952))} {validators : List ValidatorInfo} {hash : Bytes}
    {ps : List (Bytes × Nat)} {pairs : List (ValidatorInfo × Bytes)} (hread : byPosition validators ps = some pairs)
    (credited : List Nat) (distinct : Nat) (hnodup : (ps.map (·.2)).Nodup) (hfresh : ∀ x ∈ ps, x.2 ∉ credited) :
    creditSigs X keys validators hash ps credited distinct =
      .done (if pairs.all fun x => verifiesUnder X keys x.1.validatorID hash x.2 then .ok (distinct + pairs.length)
        else .error .badSignature) := by
  induction ps generalizing pairs credited distinct with
  | nil =>
    cases hread
    rfl
  | cons x ps ih =>
    obtain ⟨sig, claimed⟩ := x
    simp only [byPosition, Option.bind_eq_some_iff, Option.map_eq_some_iff] at hread
    obtain ⟨v, hv, rest, hrest, rfl⟩ := hread
    obtain ⟨hnot, hnodup⟩ := List.nodup_cons.1 hnodup
    have hclaimed : claimed ∉ credited := hfresh _ List.mem_cons_self
    have hfresh' := fresh_cons (fun x hx heq => hnot (List.mem_map.2 ⟨x, hx, heq⟩)) hfresh
    have htail := ih hrest (claimed :: credited) (distinct + 1) hnodup hfresh'
    cases hver : verifiesUnder X keys v.validatorID hash sig with
    | false => simp [creditSigs, hv, hver]
    | true =>
      rw [List.all_cons, hver, Bool.true_and]
      simp [creditSigs, hv, hver, hclaimed, htail, Nat.add_assoc, Nat.add_comm 1]

/-! ## The pairs of a final block -/

variable {X} {e : Engine} {sigs : Sigs}

/-- What a PREPARE phase with these signatures hands to the COMMIT phase. -/
def Engine.prepared (e : Engine) (block : Block) (sigs : Sigs) (leaderID : String) (quorumReached : Bool) : PrepareResult :=
  ⟨block, sigs, e.signerBitmap sigs, leaderID, quorumReached⟩

/-- The marks over any list of members with the identities of the peers, in their order. -/
theorem marks_of_order {α : Type} {f : α → RootID} {members : List α} (h : members.map f = e.order) :
    marks e.order sigs.of = marks members fun a => sigs.of (f a) := by
  funext i
  rw [marks, marks, ← h, List.getElem?_map, Option.bind_map]
  rfl

theorem items_of_order {α : Type} {f : α → RootID} {members : List α} (h : members.map f = e.order) :
    e.order.filterMap sigs.of = members.filterMap fun a => sigs.of (f a) := by
  rw [← h, List.filterMap_map]
  rfl

section Final

variable {block : Block} {leaderID : String} {q : Bool} {final : Block}
  (hfinal : final = e.finalBlock X (e.prepared block sigs leaderID q))
include hfinal

theorem bitSet_finalBlock : bitSet final.prepareSigsBitmap = marks e.order sigs.of := by
  rw [hfinal]
  exact bitSet_signerBitmap e sigs

theorem prepareSigs_finalBlock : final.prepareSigs = e.order.filterMap sigs.of := by
  rw [hfinal]
  exact compactSigs_eq rfl

/-- The bitmap has room for every peer. -/
theorem length_order_le : e.order.length ≤ final.prepareSigsBitmap.length * 8 := by
  have hbytes : final.prepareSigsBitmap.length = (e.peers.length + 7) / 8 := by
    rw [hfinal]
    exact length_signerBitmap e sigs
  rw [hbytes, Engine.order, List.length_map]
  omega

theorem pairsByRank_finalBlock : e.pairsByRank final = some (contributions e.peers fun p => sigs.of p.uid.rootID) := by
  rw [Engine.pairsByRank, bitSet_finalBlock hfinal, prepareSigs_finalBlock hfinal, marks_of_order rfl, items_of_order rfl,
    byRank_marks]

theorem pairsBySigner_finalBlock {validators : List ValidatorInfo} (h : validators.map (·.validatorID) = e.order) :
    ∃ signers, bitmapSigners final = .ok signers ∧
      pairsBySigner validators final signers = some (contributions validators fun v => sigs.of v.validatorID) := by
  have hlen := length_order_le hfinal
  refine ⟨_, bitmapSigners_ok_iff.2 ⟨rfl, ?_⟩, ?_⟩
  · rw [markedPositions, bitSet_finalBlock hfinal, prepareSigs_finalBlock hfinal, length_filter_marks hlen]
  · rw [← h, List.length_map] at hlen
    rw [pairsBySigner, markedPositions, bitSet_finalBlock hfinal, prepareSigs_finalBlock hfinal, marks_of_order h,
      items_of_order h, byPosition_marks hlen]

end Final

/-- The entries of the map are the contributions of the peers, under their names. -/
theorem perm_contributions (hdistinct : (e.peers.map (·.uid.id)).Nodup) (hkeys : ∀ id ∈ sigs, ∃ p ∈ e.peers, p.uid.id = id) :
    ((contributions e.peers fun p => sigs.of p.uid.rootID).map fun x => (x.1.uid.id, x.2)).Perm
      (sigs.entries.map fun s => (s.1, s.2)) := by
  have hnamed : ((contributions e.peers fun p => sigs.of p.uid.rootID).map fun x => (x.1.uid.id, x.2)) =
      contributions (e.peers.map (·.uid.id)) sigs.lookup := map_contributions (·.uid.id) e.peers sigs.lookup
  have hentries : (sigs.entries.map fun s => (s.1, s.2)).Nodup := by
    refine List.Nodup.of_map Prod.fst ?_
    rw [List.map_map]
    exact sigs.keys_nodup
  rw [hnamed, List.perm_ext_iff_of_nodup (nodup_contributions hdistinct) hentries]
  rintro ⟨id, sig⟩
  have hmem : (id, sig) ∈ (sigs.entries.map fun s => (s.1, s.2)) ↔ sigs.lookup id = some sig := by
    rw [← Option.mem_def, AList.mem_lookup_iff, List.mem_map]
    constructor
    · rintro ⟨s, hs, heq⟩
      cases heq
      exact hs
    · exact fun hs => ⟨_, hs, rfl⟩
  rw [mem_contributions, hmem, and_iff_right_iff_imp]
  intro hsig
  obtain ⟨p, hp, rfl⟩ := hkeys id (AList.lookup_isSome.1 (by rw [hsig]; rfl))
  exact List.mem_map_of_mem hp

/-- **A certificate decodes to what was collected.** Over distinct peers the two readings of a final block succeed and are what
the two verifiers check; the pairs of the peers are the entries of the map, one for one, and the light client reads the same
pairs over the same order. -/
theorem certificate_decodes (hdistinct : (e.peers.map (·.uid.id)).Nodup)
    (hkeys : ∀ id ∈ sigs, ∃ p ∈ e.peers, p.uid.id = id) {validators : List ValidatorInfo}
    (horder : validators.map (·.validatorID) = e.order) (block : Block) (leaderID : String) (quorumReached : Bool)
    {final : Block} (hfinal : final = e.finalBlock X (e.prepared block sigs leaderID quorumReached)) :
    ∃ pairs signers claimed,
      e.pairsByRank final = some pairs ∧ bitmapSigners final = .ok signers ∧
      pairsBySigner validators final signers = some claimed ∧
      (∀ p sig, (p, sig) ∈ pairs ↔ p ∈ e.peers ∧ sigs.lookup p.uid.id = some sig) ∧
      (pairs.map fun x => (x.1.uid.id, x.2)).Perm (sigs.entries.map fun s => (s.1, s.2)) ∧
      (claimed.map fun x => (x.1.validatorID, x.2)) = (pairs.map fun x => (x.1.uid.rootID, x.2)) ∧
      (∀ cycle, e.countVerified X cycle final e.peers.zipIdx 0 =
        if pairs.all fun x => e.verifySignatureWithOverlap X x.1.uid.rootID final.blockHash x.2 cycle then
          some pairs.length
        else none) ∧
      ∀ keys, creditSigs X keys validators final.blockHash (final.prepareSigs.zip signers) [] 0 =
        .done (if claimed.all fun x => verifiesUnder X keys x.1.validatorID final.blockHash x.2 then .ok claimed.length
          else .error .badSignature) := by
  have hread := pairsByRank_finalBlock hfinal
  obtain ⟨signers, hsigners, hclaimed⟩ := pairsBySigner_finalBlock hfinal horder
  refine ⟨_, signers, _, hread, hsigners, hclaimed, fun p sig => mem_contributions, perm_contributions hdistinct hkeys,
    ?_, ?_, ?_⟩
  · rw [map_contributions, horder]
    exact (map_contributions _ _ _).symm
  · intro cycle
    rw [countVerified_eq, ← Engine.pairsByRank, hread, Option.bind_some, Nat.zero_add]
  · intro keys
    obtain ⟨rfl, hlen⟩ := bitmapSigners_ok_iff.1 hsigners
    rw [creditSigs_eq X hclaimed [] 0 (nodup_attributed _ hlen) (fun _ _ => List.not_mem_nil), Nat.zero_add]

namespace Sample

/-- Signatures of two of the four validators. -/
def collected : Sigs := (AList.singleton (uid 4).id [4]).insert (uid 2).id [2]

theorem keys_collected : ∀ id ∈ collected, ∃ p ∈ four.peers, p.uid.id = id := by
  have hpeers : four.peers = [peer 1, peer 2, peer 3, peer 4] := rfl
  intro id hid
  rcases (AList.mem_insert _).1 hid with rfl | hid
  · exact ⟨peer 2, by simp [hpeers], rfl⟩
  · obtain rfl : id = (uid 4).id := List.mem_singleton.1 hid
    exact ⟨peer 4, by simp [hpeers], rfl⟩

/-- The final block of the second validator with these signatures. -/
def certified : Block := four.finalBlock prims (four.prepared (bareBlock 0 2 [] [] ⟨4, 3⟩) collected (uid 2).id true)

theorem certified_decodes : ∃ pairs signers claimed,
    four.pairsByRank certified = some pairs ∧ bitmapSigners certified = .ok signers ∧
    pairsBySigner [info 1, info 2, info 3, info 4] certified signers = some claimed ∧
    (pairs.map fun x => (x.1.uid.id, x.2)).Perm [((uid 2).id, [2]), ((uid 4).id, [4])] := by
  obtain ⟨pairs, signers, claimed, hread, hsigners, hclaimed, -, hperm, -⟩ := certificate_decodes (X := prims)
    (by decide : (four.peers.map (·.uid.id)).Nodup) keys_collected
    (rfl : [info 1, info 2, info 3, info 4].map (·.validatorID) = four.order) (bareBlock 0 2 [] [] ⟨4, 3⟩) (uid 2).id true
    (rfl : certified = _)
  exact ⟨pairs, signers, claimed, hread, hsigners, hclaimed, hperm⟩

end Sample

end Gleipnir
