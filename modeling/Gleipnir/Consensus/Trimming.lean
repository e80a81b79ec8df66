import Gleipnir.Consensus.Certificate
import Gleipnir.Consensus.CommitQuorum
import Gleipnir.Consensus.PastKeys

/-!
# Trimmed certificates

In degraded mode `ApplyDegradedBlock` cuts the certificate of a block down to one signature. It looks for one that verifies
under the key its signer is registered with, while `verifyPrepareQuorum` goes by the keys that are active in the cycle.

* `registeredAt_of_firstValidSig`, `firstValidSig_ne_none`: what the search finds.
* `accepts_trimmed`: a certificate that was accepted is accepted with any one of its signatures.
* `trims_iff`: trimming agrees with the quorum check exactly if a marked signature verifies under a registered key.
-/

namespace Gleipnir

open Atomic

variable (X : Prims)

/-! ## The search -/

/-- The bitmap attributes to the peer at position `i` a signature that verifies under the registered key of the peer. -/
structure RegisteredAt (block : Block) (p : Peer) (i : Nat) (sig : Bytes) : Prop where
  marked : bitSet block.prepareSigsBitmap i = true
  attributed : block.prepareSigs[countBitsBefore block.prepareSigsBitmap i]? = some sig
  verifies : verifyDilithium X p.uid.publicKey block.blockHash sig = true

variable {X} {block : Block}

theorem countBitsBefore_succ (bitmap : Bytes) (i : Nat) :
    countBitsBefore bitmap (i + 1) = countBitsBefore bitmap i + if bitSet bitmap i = true then 1 else 0 :=
  Attribution.rank_succ (bitSet bitmap) i

variable {i j : Nat} {peers : List Peer} {sig : Bytes}

theorem bitSet_beyond {bitmap : Bytes} (h : bitmap.length ≤ i / 8) : bitSet bitmap i = false := by
  rw [bitSet, List.getElem?_eq_none h]

/-- What the search returns is a marked signature under a registered key. The position among the signatures advances with the
marks, so it is the rank of the mark. -/
theorem registeredAt_of_firstValidSig
    (h : firstValidSig X block (peers.zipIdx j) (countBitsBefore block.prepareSigsBitmap j) = some (sig, i)) :
    ∃ p, (p, i) ∈ peers.zipIdx j ∧ RegisteredAt X block p i sig := by
  induction peers generalizing j with
  | nil => cases h
  | cons p peers ih =>
    have hrest : firstValidSig X block (peers.zipIdx (j + 1)) (countBitsBefore block.prepareSigsBitmap (j + 1)) =
        some (sig, i) → ∃ q, (q, i) ∈ (p :: peers).zipIdx j ∧ RegisteredAt X block q i sig := by
      intro h
      obtain ⟨q, hq, hregistered⟩ := ih h
      exact ⟨q, List.mem_cons_of_mem _ hq, hregistered⟩
    rw [countBitsBefore_succ] at hrest
    rw [List.zipIdx_cons, firstValidSig] at h
    split at h
    · cases h
    · split at h
      · next hbit =>
        rw [if_neg (by simpa using hbit)] at hrest
        exact hrest h
      · next hbit =>
        have hmarked : bitSet block.prepareSigsBitmap j = true := by simpa using hbit
        rw [if_pos hmarked] at hrest
        split at h
        · cases h
        · next sig' hsig =>
          split at h
          · next hvalid =>
            cases h
            exact ⟨p, List.mem_cons_self, hmarked, hsig, hvalid.2⟩
          · exact hrest h

/-- The search does not miss such a signature as long as the marks before it have signatures at all. -/
theorem firstValidSig_ne_none {p : Peer} (hall : ∀ q k, (q, k) ∈ peers.zipIdx j → bitSet block.prepareSigsBitmap k = true →
      ∃ s, block.prepareSigs[countBitsBefore block.prepareSigsBitmap k]? = some s) (hp : (p, i) ∈ peers.zipIdx j)
    (h : RegisteredAt X block p i sig) :
    firstValidSig X block (peers.zipIdx j) (countBitsBefore block.prepareSigsBitmap j) ≠ none := by
  induction peers generalizing j with
  | nil => cases hp
  | cons q peers ih =>
    have hinside : ¬ block.prepareSigsBitmap.length ≤ j / 8 := by
      intro hbeyond
      have hji := List.le_snd_of_mem_zipIdx hp
      have hunset := bitSet_beyond (hbeyond.trans (Nat.div_le_div_right hji))
      cases hunset.symm.trans h.marked
    have hrest : (p, i) ∈ peers.zipIdx (j + 1) →
        firstValidSig X block (peers.zipIdx (j + 1)) (countBitsBefore block.prepareSigsBitmap (j + 1)) ≠ none :=
      ih fun q' k hk => hall q' k (List.mem_cons_of_mem _ hk)
    rw [countBitsBefore_succ] at hrest
    rw [List.zipIdx_cons, List.mem_cons, Prod.mk.injEq] at hp
    rw [List.zipIdx_cons, firstValidSig, if_neg hinside]
    cases hbit : bitSet block.prepareSigsBitmap j with
    | false =>
      rcases hp with ⟨-, rfl⟩ | hp
      · cases hbit.symm.trans h.marked
      · rw [hbit, if_neg Bool.false_ne_true] at hrest
        exact hrest hp
    | true =>
      obtain ⟨s, hs⟩ := hall q j List.mem_cons_self hbit
      rw [hbit, if_pos rfl] at hrest
      simp only [Bool.not_true, Bool.false_eq_true, if_false, hs]
      split
      · exact Option.some_ne_none _
      · next hinvalid =>
        rcases hp with ⟨rfl, rfl⟩ | hp
        · cases hs.symm.trans h.attributed
          have hlen : sig.length ≠ 0 := by
            rw [length_of_verifyDilithium h.verifies]
            decide
          exact absurd ⟨hlen, h.verifies⟩ hinvalid
        · exact hrest hp

/-! ## The trimmed block -/

theorem labelledDegraded_trimmed (n i : Nat) (sig : Bytes) : (block.trimmed n i sig).labelledDegraded = true := by
  simp [Block.labelledDegraded, Block.trimmed]

section Mark

variable {n i : Nat} (hi : i < n)
include hi

theorem div_lt_length_newBitmap : i / 8 < (newBitmap n).length := by
  rw [newBitmap, List.length_replicate]
  omega

/-- The bitmap with one mark. -/
theorem bitSet_mark (j : Nat) : bitSet (setBit (newBitmap n) i) j = decide (i = j) := by
  rw [bitSet_setBit (div_lt_length_newBitmap hi), bitSet_newBitmap, Bool.false_or]

theorem countBitsBefore_mark (j : Nat) : countBitsBefore (setBit (newBitmap n) i) j = if i < j then 1 else 0 := by
  induction j with
  | zero => rfl
  | succ j ih =>
    simp only [countBitsBefore_succ, ih, bitSet_mark hi, decide_eq_true_eq]
    split_ifs <;> omega

end Mark

variable {e : Engine} {cycle : UInt64}

/-- **One signature is enough.** A certificate that was accepted is accepted with any one of its signatures. -/
theorem accepts_trimmed (h : e.verifyPrepareQuorum X cycle block = true) {p : Peer} (hp : e.peers[i]? = some p)
    (hmarked : bitSet block.prepareSigsBitmap i = true)
    (hsig : block.prepareSigs[countBitsBefore block.prepareSigsBitmap i]? = some sig) :
    e.verifyPrepareQuorum X cycle (block.trimmed e.peers.length i sig) = true := by
  have hi : i < e.peers.length := (List.getElem?_eq_some_iff.1 hp).1
  obtain ⟨-, hsigned, -⟩ := (verifyPrepareQuorum_iff X).1 h
  refine (verifyPrepareQuorum_iff X).2 ⟨⟨?_, List.cons_ne_nil _ _⟩, ?_, ?_⟩
  · intro hnil
    have hset : bitSet [] i = true := by
      rw [← hnil]
      exact (bitSet_mark hi i).trans (decide_eq_true rfl)
    cases hset
  · intro j q hq hj
    have hij : i = j := of_decide_eq_true ((bitSet_mark hi j).symm.trans hj)
    rw [← hij, hp] at hq
    cases hq
    obtain ⟨sig', hsig', hactive⟩ := hsigned i p hp hmarked
    cases hsig.symm.trans hsig'
    refine ⟨sig, ?_, hactive⟩
    change [sig][countBitsBefore (setBit (newBitmap e.peers.length) i) j]? = some sig
    rw [countBitsBefore_mark hi, if_neg (by omega)]
    rfl
  · rw [labelledDegraded_trimmed, if_pos rfl]
    exact (countBitsBefore_mark hi e.peers.length).ge.trans' (by rw [if_pos hi])

variable (X) in
/-- Degraded trimming agrees with the quorum check on the block: it succeeds, keeps the hash, and leaves a block with one signer
that the engine accepts. -/
def Trims (e : Engine) (cycle : UInt64) (block : Block) : Prop :=
  ∃ block', e.degraded.applyDegradedBlock X block e.peers = some block' ∧ block'.blockHash = block.blockHash ∧
    e.verifyPrepareQuorum X cycle block' = true ∧ block'.prepareSigs.length = 1 ∧
    countBitsBefore block'.prepareSigsBitmap e.peers.length = 1

/-- **Degraded trimming.** Whatever the peers and the key history of an engine in degraded mode: a block that it accepts is
trimmed to one that it accepts, with one signer, exactly if a marked signature verifies under the registered key of its
signer. -/
theorem trims_iff (hd : e.degraded.inDegraded = true) (h : e.verifyPrepareQuorum X cycle block = true) :
    Trims X e cycle block ↔ ∃ i p sig, e.peers[i]? = some p ∧ RegisteredAt X block p i sig := by
  have hstart : ∀ ps, firstValidSig X block ps 0 =
      firstValidSig X block ps (countBitsBefore block.prepareSigsBitmap 0) := fun _ => rfl
  constructor
  · rintro ⟨block', happlied, -⟩
    obtain ⟨sig, i, hfound, -⟩ := (applyDegradedBlock_iff hd).1 happlied
    rw [hstart] at hfound
    obtain ⟨p, hp, hregistered⟩ := registeredAt_of_firstValidSig hfound
    exact ⟨i, p, sig, List.mem_zipIdx_iff_getElem?.1 hp, hregistered⟩
  · rintro ⟨i, p, sig, hp, hregistered⟩
    obtain ⟨-, hsigned, -⟩ := (verifyPrepareQuorum_iff X).1 h
    have hall : ∀ q k, (q, k) ∈ e.peers.zipIdx 0 → bitSet block.prepareSigsBitmap k = true →
        ∃ s, block.prepareSigs[countBitsBefore block.prepareSigsBitmap k]? = some s := by
      intro q k hq hk
      obtain ⟨s, hs, -⟩ := hsigned k q (List.mem_zipIdx_iff_getElem?.1 hq) hk
      exact ⟨s, hs⟩
    obtain ⟨⟨sig', i'⟩, hfound⟩ := Option.ne_none_iff_exists'.1
      (firstValidSig_ne_none hall (List.mem_zipIdx_iff_getElem?.2 hp) hregistered)
    obtain ⟨p', hp', hregistered'⟩ := registeredAt_of_firstValidSig hfound
    have hpeer := List.mem_zipIdx_iff_getElem?.1 hp'
    have hi : i' < e.peers.length := (List.getElem?_eq_some_iff.1 hpeer).1
    refine ⟨_, (applyDegradedBlock_iff hd).2 ⟨sig', i', hfound, rfl⟩, rfl,
      accepts_trimmed h hpeer hregistered'.marked hregistered'.attributed, rfl, ?_⟩
    exact (countBitsBefore_mark hi _).trans (if_pos hi)

namespace Sample

/-- A block with the only validator's signature, under the key that starts with `k`. -/
def signedUnder (k : UInt8) : Block :=
  let b := bareBlock 0 1 [] [] ⟨1, 1⟩
  { b with prepareSigsBitmap := [1], prepareSigs := [stamp k b.blockHash] }

/-- The rotated node in the overlap of its two keys: it accepts either, and trims the block under the registered one only. -/
def overlapFacts : Computed rotated.2.1 fun e => e.degraded.inDegraded = true ∧ e.peers.length < 4 ∧
    (e.peers.map (·.uid.rootID)).Nodup ∧ e.verifyPrepareQuorum prims 25 (signedUnder 1) = true ∧
    e.verifyPrepareQuorum prims 25 (signedUnder 5) = true ∧
    (e.peers.map fun p => verifyDilithium prims p.uid.publicKey (signedUnder 1).blockHash (stamp 1 (signedUnder 1).blockHash)) =
      [true] ∧
    (e.degraded.applyDegradedBlock prims (signedUnder 5) e.peers).isNone = true :=
  computed _ (by decide +kernel)

/-- The block under the registered key is trimmed. -/
theorem registered_key_trims : ∃ e cycle block, e.degraded.inDegraded = true ∧ e.verifyPrepareQuorum prims cycle block = true ∧
    Trims prims e cycle block := by
  obtain ⟨e, -, hd, -, -, haccepted, -, hverifies, -⟩ := overlapFacts
  obtain ⟨p, rest, hpeers, hp, -⟩ := List.map_eq_cons_iff.1 hverifies
  refine ⟨e, 25, signedUnder 1, hd, haccepted, (trims_iff hd haccepted).2 ⟨0, p, _, by rw [hpeers]; rfl, ?_, rfl, hp⟩⟩
  decide

/-- The block under the new key passes the quorum check, and no signature of it is found. -/
theorem rotated_key_untrimmed : ∃ e₀ τ e cycle block, e₀.Fresh ∧ EngineRun prims e₀ τ e ∧ e.peers.length < 4 ∧
    (e.peers.map (·.uid.rootID)).Nodup ∧ e.degraded.inDegraded = true ∧ e.verifyPrepareQuorum prims cycle block = true ∧
    e.degraded.applyDegradedBlock prims block e.peers = none := by
  have hrun : EngineRun prims (Engine.new (node 1)) (founded.1 ++ rotated.1) rotated.2.1 :=
    (run_calls _ _ _).append (run_calls _ _ _)
  obtain ⟨e, he, hd, hfew, hdistinct, -, haccepted, -, hnone⟩ := overlapFacts
  rw [← he] at hrun
  exact ⟨_, _, e, 25, signedUnder 5, .inl ⟨_, rfl⟩, hrun, hfew, hdistinct, hd, haccepted, Option.isNone_iff_eq_none.1 hnone⟩

end Sample

end Gleipnir
