import Gleipnir.Consensus.Origin
import Gleipnir.Lib.Attribution
import Gleipnir.Lib.FirstWins

/-!
# The certificate of a final block

The bitmap of a final block says which positions of the leader's list of peers have signed, and the payload has their
signatures in that order. `bitSet_signerBitmap` and `compactSigs_eq` say that the two are the marks and the items of the
signatures that were collected (`Attribution`); `runs_tally_certificate`, that a PREPARE phase collects signatures that verify
for their signers, the leader's own among them. `ledBlock_of_leads` is what the final block of a leader consists of.
-/

namespace Gleipnir

open Atomic Atomic.Body Attribution

variable {X : Prims}

/-! ## Bitmaps -/

theorem length_setBit (bitmap : Bytes) (i : Nat) : (setBit bitmap i).length = bitmap.length := List.length_modify _ _ _

theorem testBit_or_shift (b : UInt8) {k j : Nat} (hk : k < 8) :
    (b ||| (1 <<< UInt8.ofNat k)).toNat.testBit j = (b.toNat.testBit j || decide (k = j)) := by
  have hshift : ((1 : UInt8) <<< UInt8.ofNat k).toNat = 2 ^ k := by
    have hpow : 2 ^ k < 2 ^ 8 := Nat.pow_lt_pow_right (by decide) hk
    have hk' : k % 256 % 8 = k := by omega
    rw [UInt8.toNat_shiftLeft, UInt8.toNat_ofNat', UInt8.toNat_one, hk', Nat.one_shiftLeft, Nat.mod_eq_of_lt hpow]
  rw [UInt8.toNat_or, hshift, Nat.testBit_or, Nat.testBit_two_pow]

theorem bitSet_setBit {bitmap : Bytes} {i j : Nat} (hi : i / 8 < bitmap.length) :
    bitSet (setBit bitmap i) j = (bitSet bitmap j || decide (i = j)) := by
  unfold bitSet setBit
  rw [List.getElem?_modify]
  cases hb : bitmap[j / 8]? with
  | none =>
    have hj : bitmap.length ≤ j / 8 := List.getElem?_eq_none_iff.1 hb
    have hne : i ≠ j := by
      rintro rfl
      omega
    simp [hne]
  | some b =>
    simp only [Option.map_eq_map, Option.map_some]
    by_cases hq : i / 8 = j / 8
    · rw [if_pos hq, testBit_or_shift b (by omega)]
      congr 1
      rw [decide_eq_decide]
      omega
    · have hne : i ≠ j := by
        rintro rfl
        exact hq rfl
      simp [hq, hne]

theorem bitSet_newBitmap (n i : Nat) : bitSet (newBitmap n) i = false := by
  unfold bitSet newBitmap
  rw [List.getElem?_replicate]
  split
  · next h =>
    split at h
    · cases h
    · rfl
  · next b h =>
    split at h
    · cases h
      exact Nat.zero_testBit _
    · cases h

/-- Setting bits one after the other. -/
theorem bitSet_foldl {α : Type} {c : α → Bool} {f : α → Nat} {j : Nat} (as : List α) (bitmap : Bytes)
    (h : ∀ a ∈ as, f a / 8 < bitmap.length) :
    bitSet (as.foldl (fun bm a => if c a = true then setBit bm (f a) else bm) bitmap) j =
      (bitSet bitmap j || as.any fun a => c a && decide (f a = j)) := by
  induction as generalizing bitmap with
  | nil => simp
  | cons a as ih =>
    rw [List.forall_mem_cons] at h
    rw [List.foldl_cons, List.any_cons]
    cases hc : c a with
    | false =>
      rw [if_neg (by simp), ih bitmap h.2, Bool.false_and, Bool.false_or]
    | true =>
      rw [if_pos rfl, ih _ (by simpa only [length_setBit] using h.2), bitSet_setBit h.1, Bool.true_and, Bool.or_assoc]

/-! ## The certificate of a PREPARE phase -/

/-- The signature collected for an identity. -/
def Sigs.of (sigs : Sigs) (id : RootID) : Option Bytes := sigs.lookup (hexEncode id.toList)

/-- The identities of the peers, in their order. -/
def Engine.order (e : Engine) : List RootID := e.peers.map (·.uid.rootID)

/-- The bitmap marks the peers whose signature was collected. -/
theorem bitSet_signerBitmap (e : Engine) (sigs : Sigs) : bitSet (e.signerBitmap sigs) = marks e.order sigs.of := by
  have hpos : ∀ pi ∈ e.peers.zipIdx, pi.2 / 8 < (newBitmap e.peers.length).length := by
    intro pi hpi
    have hlt : pi.2 < e.peers.length := (List.getElem?_eq_some_iff.1 (List.mem_zipIdx_iff_getElem?.1 hpi)).1
    rw [newBitmap, List.length_replicate]
    omega
  funext j
  have hfold := bitSet_foldl (c := fun pi : Peer × Nat => decide (pi.1.uid.id ∈ sigs)) (f := Prod.snd) (j := j)
    e.peers.zipIdx (newBitmap e.peers.length) hpos
  simp only [decide_eq_true_eq] at hfold
  rw [Engine.signerBitmap, hfold, bitSet_newBitmap, Bool.false_or, Bool.eq_iff_iff, marks_iff, List.any_eq_true]
  simp only [Prod.exists, List.mem_zipIdx_iff_getElem?, Bool.and_eq_true, decide_eq_true_eq, Engine.order,
    List.getElem?_map, Option.map_eq_some_iff]
  constructor
  · rintro ⟨p, i, hp, hmem, rfl⟩
    obtain ⟨sig, hsig⟩ := Option.isSome_iff_exists.1 (AList.lookup_isSome.2 hmem)
    exact ⟨_, sig, ⟨p, hp, rfl⟩, hsig⟩
  · rintro ⟨id, sig, ⟨p, hp, rfl⟩, hsig⟩
    exact ⟨p, j, hp, AList.lookup_isSome.1 (by rw [show sigs.lookup p.uid.id = some sig from hsig]; rfl), rfl⟩

variable {e e' : Engine} {pr : PrepareResult} {cq : Bool} {q : Nat} {cycle : UInt64} {batch : List ProvenanceEntry} {t : Trace}

/-- The payload is the collected signatures of the peers, in their order. -/
theorem compactSigs_eq (h : pr.prepareBitmap = e.signerBitmap pr.prepareSigs) :
    e.compactSigs pr = e.order.filterMap pr.prepareSigs.of := by
  have hitem : ∀ pi ∈ e.peers.zipIdx,
      (if bitSet pr.prepareBitmap pi.2 then pr.prepareSigs.lookup pi.1.uid.id else none) =
        pr.prepareSigs.of pi.1.uid.rootID := by
    intro pi hpi
    rw [h, bitSet_signerBitmap]
    cases hsig : pr.prepareSigs.of pi.1.uid.rootID with
    | none =>
      rw [show pr.prepareSigs.lookup pi.1.uid.id = none from hsig, ite_self]
    | some sig =>
      have hget : e.order[pi.2]? = some pi.1.uid.rootID := by
        rw [Engine.order, List.getElem?_map, List.mem_zipIdx_iff_getElem?.1 hpi]
        rfl
      rw [if_pos (marks_of_getElem? hget hsig)]
      exact hsig
  rw [Engine.compactSigs, List.filterMap_congr hitem, Engine.order, List.filterMap_map]
  conv_rhs => rw [← List.zipIdx_map_fst 0 e.peers, List.filterMap_map]
  rfl

section Valid

variable {e : Engine} {cycle : UInt64} {block : Block} {sigs : Sigs} {id : String} {sig : Bytes}

/-- Signatures that were found valid are those of peers, under active keys. -/
theorem validSigs_active (h : (e.validSigs X cycle block sigs).lookup id = some sig) :
    sigs.lookup id = some sig ∧ ∃ p, e.peers.find? (fun p => p.uid.id == id) = some p ∧
      e.ActiveSignature X cycle p.uid.rootID block.blockHash sig := by
  revert id sig
  unfold Engine.validSigs
  refine List.foldlRecOn (motive := fun valid : Sigs => ∀ {id : String} {sig : Bytes}, valid.lookup id = some sig →
    sigs.lookup id = some sig ∧ ∃ p, e.peers.find? (fun p => p.uid.id == id) = some p ∧
      e.ActiveSignature X cycle p.uid.rootID block.blockHash sig) sigs.entries _ ?_ ?_
  · intro id sig h
    simp at h
  · intro valid hvalid s hs id sig h
    split at h
    · exact hvalid h
    · next p hp =>
      split at h
      · next hver =>
        by_cases hid : id = s.1
        · subst hid
          rw [AList.lookup_insert] at h
          cases h
          exact ⟨AList.mem_lookup_iff.2 hs, p, hp, (verifySignatureWithOverlap_iff X).1 hver⟩
        · rw [AList.lookup_insert_ne hid] at h
          exact hvalid h
      · exact hvalid h

/-- A signature of a peer that verifies is found valid, unless a later one of the same signer takes its place. -/
theorem mem_validSigs (hsig : sigs.lookup id = some sig) {p : Peer}
    (hp : e.peers.find? (fun p => p.uid.id == id) = some p)
    (hver : e.ActiveSignature X cycle p.uid.rootID block.blockHash sig) : id ∈ e.validSigs X cycle block sigs := by
  obtain ⟨u, v, huv⟩ := List.append_of_mem (AList.mem_lookup_iff.1 hsig)
  unfold Engine.validSigs
  rw [huv, List.foldl_append, List.foldl_cons]
  refine List.foldlRecOn (motive := fun valid : Sigs => id ∈ valid) v _ ?_ ?_
  · simp [hp, (verifySignatureWithOverlap_iff X).2 hver]
  · intro valid hvalid s _
    split
    · exact hvalid
    · split
      · exact (AList.mem_insert _).2 (.inr hvalid)
      · exact hvalid

/-- **Who is counted**: the peers whose signature verifies. -/
theorem mem_validSigs_iff : id ∈ e.validSigs X cycle block sigs ↔ ∃ sig, sigs.lookup id = some sig ∧
    ∃ p, e.peers.find? (fun p => p.uid.id == id) = some p ∧ e.ActiveSignature X cycle p.uid.rootID block.blockHash sig := by
  constructor
  · intro h
    obtain ⟨sig, hsig⟩ := Option.isSome_iff_exists.1 (AList.lookup_isSome.2 h)
    exact ⟨sig, validSigs_active hsig⟩
  · rintro ⟨sig, hsig, p, hp, hver⟩
    exact mem_validSigs hsig hp hver

end Valid

/-! ## Collecting -/

theorem addSig_eq : addSig = FirstWins.offer BlockSig.signerID fun s => some s.sig := rfl

theorem lookup_singleton (id : String) (sig : Bytes) : AList.lookup id (AList.singleton id sig : Sigs) = some sig :=
  AList.lookup_insert ∅

/-- What a proposer looks at: the first signature of the block, then the messages, the first of each signer. -/
theorem lookup_foldl_addSig (own : Sigs) (msgs : List BlockSig) (id : String) :
    (msgs.foldl addSig own).lookup id =
      (own.lookup id).or ((FirstWins.first BlockSig.signerID id msgs).map BlockSig.sig) := by
  rw [addSig_eq, FirstWins.lookup_foldl_offer, FirstWins.findSome?_total]

variable {cycle : UInt64} {block : Block} {e e' : Engine} {t : Trace}

variable (X) in
/-- The signatures that a proposer counts when it is shown `msgs`, its own being `sig`. -/
def Engine.counts (e : Engine) (cycle : UInt64) (block : Block) (sig : Bytes) (msgs : List BlockSig) : Sigs :=
  e.validSigs X cycle block (msgs.foldl addSig (AList.singleton e.node.uid.id sig))

variable (X) in
/-- `valid` is what a proposer finds valid of the first signature of the block and of the messages of one of its calls `t`. -/
def Engine.Collected (e : Engine) (cycle : UInt64) (block : Block) (t : Trace) (valid : Sigs) : Prop :=
  ∃ sig rest msgs, block.prepareSigs = sig :: rest ∧ valid = e.counts X cycle block sig msgs ∧
    (e.hasGossip = true → ⟨.getSigs cycle, msgs⟩ ∈ t)

theorem Engine.Collected.mono {t' : Trace} {valid : Sigs} (h : e.Collected X cycle block t valid) (ht : t ⊆ t') :
    e.Collected X cycle block t' valid := by
  obtain ⟨sig, rest, msgs, hs, hv, hread⟩ := h
  exact ⟨sig, rest, msgs, hs, hv, fun hg => ht (hread hg)⟩

theorem runs_collectValidSigs {valid : Sigs} (h : Runs (collectValidSigs X cycle true block) e t (.done valid) e') :
    e.Collected X cycle block t valid := by
  unfold collectValidSigs at h
  obtain ⟨t₁, own, e₁, t₂, rfl, h₁, h₂⟩ := runs_bind_done.1 h
  obtain ⟨rfl, -⟩ := reads_localSig _ _ _ _ _ _ _ h₁
  obtain ⟨sig, rest, hs, rfl⟩ : ∃ sig rest, block.prepareSigs = sig :: rest ∧ own = AList.singleton e₁.node.uid.id sig := by
    unfold localSig at h₁
    rw [runs_get_bind, if_pos (.inl rfl)] at h₁
    cases hs : block.prepareSigs with
    | nil =>
      rw [hs] at h₁
      obtain ⟨-, hpanic, -⟩ := runs_panic.1 h₁
      cases hpanic
    | cons sig rest =>
      rw [hs] at h₁
      obtain ⟨-, hx, -⟩ := runs_pure.1 h₁
      cases hx
      exact ⟨sig, rest, rfl, rfl⟩
  rw [runs_get_bind] at h₂
  split at h₂
  · obtain ⟨msgs, t₃, rfl, h₃⟩ := runs_perform_bind.1 h₂
    obtain ⟨-, hx, -⟩ := runs_pure.1 h₃
    cases hx
    exact ⟨sig, rest, msgs, hs, rfl, fun _ => List.mem_append_right _ List.mem_cons_self⟩
  · next hg =>
    obtain ⟨-, hx, -⟩ := runs_pure.1 h₂
    cases hx
    exact ⟨sig, rest, [], hs, rfl, fun hg' => absurd hg' hg⟩

/-- The certificate of a proposer's PREPARE phase is about what it collected. -/
theorem runs_tally_certificate {leaderID : String} (h : Runs (tally X cycle true leaderID block cq q) e t (.done pr) e') :
    pr.prepareBitmap = e.signerBitmap pr.prepareSigs ∧ e.Collected X cycle block t pr.prepareSigs := by
  unfold tally at h
  obtain ⟨t₁, first, e₁, t₂, rfl, h₁, h₂⟩ := runs_bind_done.1 h
  obtain ⟨t₃, valid, e₂, t₄, rfl, h₃, h₄⟩ := runs_bind_done.1 h₂
  obtain ⟨rfl, -⟩ := reads_collectValidSigs X _ _ _ _ _ _ _ h₁
  obtain ⟨rfl, -⟩ := reads_awaitQuorum X _ _ _ _ _ _ _ _ _ _ h₃
  rw [runs_get_bind] at h₄
  obtain ⟨-, hx, -⟩ := runs_pure.1 h₄
  cases hx
  refine ⟨rfl, ?_⟩
  -- the signatures of the first look, or of the last one after a wait
  have hfirst : valid = first → e₂.Collected X cycle block (t₁ ++ (t₃ ++ t₄)) valid := by
    rintro rfl
    exact (runs_collectValidSigs h₁).mono (List.subset_append_left _ _)
  unfold awaitQuorum at h₃
  rw [runs_get_bind] at h₃
  split at h₃
  · obtain ⟨t₅, waited, e₃, t₆, rfl, h₅, h₆⟩ := runs_bind_done.1 h₃
    obtain ⟨rfl, -⟩ := reads_waitForSignatures X _ _ _ _ _ _ _ _ h₅
    cases waited with
    | true => exact (runs_collectValidSigs h₆).mono fun ev hev => by simp [hev]
    | false =>
      obtain ⟨-, hx, -⟩ := runs_pure.1 h₆
      exact hfirst (Exit.done.inj hx)
  · obtain ⟨-, hx, -⟩ := runs_pure.1 h₃
    exact hfirst (Exit.done.inj hx)

/-! ## The final block of a leader -/

/-- How a leader comes to its final block: the first PREPARE phase elects it and it builds the candidate, the quorum check
elects it again and reads the candidate back, and the COMMIT phase delivers the block. -/
def Leads (X : Prims) (e : Engine) (cycle : UInt64) (pr : PrepareResult) (final : Block) : Prop :=
  ∃ root batch q t u v pr₁ e₁ e₂ e₃,
    Runs (runPreparePhase X cycle root batch false q) e t (.done (.ok pr₁)) e₁ ∧ pr₁.leaderID = e.node.uid.id ∧
    Runs (runPreparePhase X cycle root batch true q) e₁ u (.done (.ok pr)) e₂ ∧ pr.leaderID = e.node.uid.id ∧
    pr.block = pr₁.block ∧ Runs (runCommitPhase X cycle pr) e₂ v (.done (.ok final)) e₃

/-- What the final block of a leader consists of. -/
structure LedBlock (X : Prims) (e : Engine) (cycle : UInt64) (pr : PrepareResult) (final : Block) : Prop where
  index : final.index = cycle
  prevHash : final.prevHash = e.prevHash
  validators : final.validators = e.peers.map Peer.validatorInfo
  proposer : final.proposer = e.node.uid.rootID
  version : final.protocolVersion = 2
  hash : computeBlockHash X final = final.blockHash
  width : e.order.length ≤ final.prepareSigsBitmap.length * 8
  bitmap : bitSet final.prepareSigsBitmap = marks e.order pr.prepareSigs.of
  payload : final.prepareSigs = e.order.filterMap pr.prepareSigs.of
  commitSig : final.commitSig = signDilithium X e.node.uid.secretKey final.blockHash
  collected : ∀ id sig, pr.prepareSigs.lookup id = some sig →
    ∃ p ∈ e.peers, p.uid.id = id ∧ e.ActiveSignature X cycle p.uid.rootID final.blockHash sig
  own : ∀ p, e.peers.find? (fun p => p.uid.id == e.node.uid.id) = some p →
    e.ActiveSignature X cycle p.uid.rootID final.blockHash final.commitSig → e.node.uid.id ∈ pr.prepareSigs

theorem length_signerBitmap (e : Engine) (sigs : Sigs) : (e.signerBitmap sigs).length = (e.peers.length + 7) / 8 := by
  unfold Engine.signerBitmap
  refine List.foldlRecOn (motive := fun bitmap : Bytes => bitmap.length = _) e.peers.zipIdx _ (by simp [newBitmap]) ?_
  intro bitmap hlen pi _
  split
  · rw [length_setBit, hlen]
  · exact hlen

/-- What a proposer obtains in the first phase it has built. -/
theorem obtained_own {p : Peer} {block : Block} (h : Obtained X e cycle p batch false q true t (.done (.ok block)) e') :
    ∃ entries now, block = e.newCandidate X cycle p entries q now := by
  generalize hy : (Exit.done (Except.ok block) : Exit (Except PrepareError Block)) = y at h
  generalize hcq : false = cq at h
  generalize ham : true = am at h
  cases h with
  | nothing err ht => cases hy
  | readBack b ham' hg hcq' =>
    rw [hcq'] at hcq
    cases hcq
  | built entries now ham' hcq' hpend hpool ht => exact ⟨entries, now, Except.ok.inj (Exit.done.inj hy)⟩
  | judged b ham' hg ht hread hv =>
    rw [ham'] at ham
    cases ham

theorem ledBlock_of_leads {final : Block} (h : Leads X e cycle pr final) : LedBlock X e cycle pr final := by
  obtain ⟨root, batch, q, t, u, v, pr₁, e₁, e₂, e₃, h₁, hl₁, h₂, hl, hown, h₃⟩ := h
  obtain ⟨st₁, he₁⟩ := prepare_frame X h₁
  obtain ⟨st, he⟩ : ∃ st, e₂ = { e with st := st } := by
    obtain ⟨st, he⟩ := prepare_frame X h₂
    exact ⟨st, by rw [he, he₁]⟩
  have hnode₁ : e₁.node = e.node := by rw [he₁]
  have hnode : e₂.node = e.node := by rw [he]
  have hpeers : e₂.peers = e.peers := by rw [he]
  have hactive : ∀ {id msg sig}, e₂.ActiveSignature X cycle id msg sig ↔ e.ActiveSignature X cycle id msg sig := by
    intro id msg sig
    rw [he]
    rfl
  have horder : e₂.order = e.order := congrArg (List.map _) hpeers
  obtain ⟨p, _, _, _, -, -, hp, hobtained, -⟩ := prepare_ok X h₁
  obtain ⟨p₂, _, _, _, -, -, hp₂, -, htally⟩ := prepare_ok X h₂
  rw [beq_iff_eq.2 (show p₂.uid.id = e₁.node.uid.id by rw [← hp₂, hl, hnode₁])] at htally
  obtain ⟨hbitmap, sig, rest, msgs, hs, hsigs, -⟩ := runs_tally_certificate htally
  -- the candidate was built by the leader itself
  have hid : p.uid.id = e.node.uid.id := hp.symm.trans hl₁
  rw [beq_iff_eq.2 hid] at hobtained
  obtain ⟨entries, now, hblock⟩ := obtained_own hobtained
  rw [← hown] at hblock
  have hcandidate : computeBlockHash X pr.block = pr.block.blockHash := by
    rw [hblock]
    rfl
  have hsig : pr.block.prepareSigs = [signDilithium X e.node.uid.secretKey pr.block.blockHash] := by
    rw [hblock]
    rfl
  obtain ⟨-, hfinal⟩ := runs_commitPhase X h₃
  generalize hx : (Exit.done (Except.ok final) : Exit (Except CommitError Block)) = x at hfinal
  cases hfinal with
  | failed err ht => cases hx
  | followed hq hl' => exact absurd (hl.trans (congrArg (·.uid.id) hnode.symm)) hl'
  | led hq hl' ht =>
    obtain rfl := Except.ok.inj (Exit.done.inj hx)
    have hhash : (e₂.finalBlock X pr).blockHash = pr.block.blockHash :=
      ((sameHeader_finalBlock X e₂ pr).hash X).trans hcandidate
    have hcommit : (e₂.finalBlock X pr).commitSig =
        signDilithium X e.node.uid.secretKey (e₂.finalBlock X pr).blockHash := by
      rw [← hnode]
      rfl
    refine ⟨congrArg Block.index hblock, congrArg Block.prevHash hblock, congrArg Block.validators hblock,
      (congrArg Block.proposer hblock).trans (UIDZeroSoulbound.id_inj hid), rfl, rfl, ?_, ?_, ?_, hcommit, ?_, ?_⟩
    · have hwidth : (e₂.finalBlock X pr).prepareSigsBitmap.length = (e.peers.length + 7) / 8 := by
        rw [← hpeers, ← length_signerBitmap, ← hbitmap]
        rfl
      rw [hwidth, Engine.order, List.length_map]
      omega
    · rw [← horder, ← bitSet_signerBitmap, ← hbitmap]
      rfl
    · rw [← horder, ← compactSigs_eq hbitmap]
      rfl
    · intro id sig' hlookup
      rw [hsigs] at hlookup
      obtain ⟨-, p', hfind, hver⟩ := validSigs_active hlookup
      rw [hpeers] at hfind
      rw [hactive, ← hhash] at hver
      exact ⟨p', List.mem_of_find?_eq_some hfind, by simpa using List.find?_some hfind, hver⟩
    · intro p' hfind hown
      rw [hcommit, hhash, ← hactive] at hown
      rw [hsig] at hs
      cases hs
      rw [← hpeers] at hfind
      rw [hsigs]
      refine mem_validSigs ?_ hfind hown
      rw [lookup_foldl_addSig, ← hnode, lookup_singleton, Option.some_or]

end Gleipnir
