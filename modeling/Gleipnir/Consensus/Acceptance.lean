import Gleipnir.Consensus.Certificate
import Gleipnir.Consensus.CommitQuorum
import Gleipnir.Consensus.OwnKey
import Gleipnir.Daemon.Peers
import Gleipnir.LightClient.VerifySpec

/-!
# Who accepts the final block of a leader

The leader writes the certificate of a final block over its own list of peers; a node reads it over its own list, and a light
client over the list of its anchor.

* `final_accepted_iff`: of the nodes and light clients with the same validators and keys, those accept the block that have
  every signer at the position at which the leader has it.
* `selfFirst_refuses`: with lists as `parsePeers` makes them, the node itself first, no other node ever does.
-/

namespace Gleipnir

open Atomic Atomic.Body Attribution LightClient

variable {X : Prims}

/-! ## Views of the validators -/

/-- The validators of a cycle as one party sees them: in the order of its own list, with the keys it holds for active. -/
structure View where
  order : List RootID
  keys : RootID → Option (List (Arr 1952))

/-- The view of a node. -/
def Engine.view (e : Engine) (cycle : UInt64) : View :=
  ⟨e.order, fun id => e.keyRotationValidator.getActivePublicKey id cycle⟩

/-- The view of a light client. -/
def LightClient.TrustAnchor.view (X : Prims) (anchor : TrustAnchor) (cycle : UInt64) : View :=
  ⟨anchor.validators.map (·.validatorID), fun id => (newKeyResolver X anchor).getActivePublicKey id cycle⟩

namespace View

/-- The signature verifies for the validator. -/
def Verifies (X : Prims) (v : View) (id : RootID) (msg sig : Bytes) : Prop :=
  ∃ keys, v.keys id = some keys ∧ ∃ pk ∈ keys, verifyDilithium X pk msg sig = true

/-- Two parties have the same validators with the same keys, in whatever order. -/
structure SameSet (v w : View) : Prop where
  order : w.order.Perm v.order
  keys : ∀ id ∈ v.order, w.keys id = v.keys id

/-- No signature that was collected verifies for a validator other than its signer. -/
def Distinguishes (X : Prims) (v : View) (msg : Bytes) (sigs : Sigs) : Prop :=
  ∀ a ∈ v.order, ∀ sig, sigs.of a = some sig → ∀ b ∈ v.order, v.Verifies X b msg sig → b = a

variable {v w : View}

theorem SameSet.verifies (h : v.SameSet w) {id : RootID} (hid : id ∈ v.order) {msg sig : Bytes} :
    w.Verifies X id msg sig ↔ v.Verifies X id msg sig := by
  unfold Verifies
  rw [h.keys id hid]

/-- A signature that was collected verifies for its signer only, in every view of the same set. -/
theorem SameSet.eq_signer (h : v.SameSet w) {msg sig : Bytes} {sigs : Sigs} (hone : v.Distinguishes X msg sigs)
    {a b : RootID} (ha : a ∈ v.order) (hsig : sigs.of a = some sig) (hb : b ∈ w.order) (hver : w.Verifies X b msg sig) : b = a := by
  have hb : b ∈ v.order := h.order.mem_iff.1 hb
  exact hone a ha sig hsig b hb ((h.verifies hb).1 hver)

end View

section Acceptance

variable {e : Engine} {cycle : UInt64} {pr : PrepareResult} {final : Block} {w : View}

/-- Every signature that was collected is in the payload. -/
theorem LedBlock.length_payload (h : LedBlock X e cycle pr final) :
    pr.prepareSigs.entries.length ≤ final.prepareSigs.length := by
  have hsub : pr.prepareSigs.keys ⊆
      (e.order.filter fun id => (pr.prepareSigs.of id).isSome).map fun id => hexEncode id.toList := by
    intro id hid
    obtain ⟨sig, hsig⟩ := Option.isSome_iff_exists.1 (AList.lookup_isSome.2 (AList.mem_keys.2 hid))
    obtain ⟨p, hp, rfl, -⟩ := h.collected id sig hsig
    refine List.mem_map.2 ⟨p.uid.rootID, List.mem_filter.2 ⟨List.mem_map_of_mem hp, ?_⟩, rfl⟩
    exact Option.isSome_iff_exists.2 ⟨sig, hsig⟩
  calc pr.prepareSigs.entries.length
      = pr.prepareSigs.keys.length := (List.length_map _).symm
    _ ≤ _ := (List.subperm_of_subset pr.prepareSigs.keys_nodup hsub).length_le
    _ = final.prepareSigs.length := by
        rw [List.length_map, ← List.countP_eq_length_filter, h.payload, List.length_filterMap_eq_countP]

/-- The signatures of the payload verify for their signers, in every view of the same set. -/
theorem LedBlock.verifies (h : LedBlock X e cycle pr final) (hsame : (e.view cycle).SameSet w) {id : RootID} {sig : Bytes}
    (hid : id ∈ e.order) (hsig : pr.prepareSigs.of id = some sig) : w.Verifies X id final.blockHash sig := by
  obtain ⟨p, -, hp, hactive⟩ := h.collected _ sig hsig
  rw [show p.uid.rootID = id from hexEncode_inj hp |> List.Vector.toList_injective] at hactive
  exact (hsame.verifies hid).2 hactive

/-- The certificate marks a quorum of the validators. -/
theorem LedBlock.quorum (h : LedBlock X e cycle pr final) (hn : 4 ≤ e.peers.length)
    (hq : 2 * e.peers.length ≤ 3 * pr.prepareSigs.entries.length) :
    (2 * e.peers.length + 2) / 3 ≤ final.prepareSigs.length ∧ 0 < final.prepareSigs.length ∧
      0 < final.prepareSigsBitmap.length := by
  have hmany := h.length_payload
  have hwidth := h.width
  rw [Engine.order, List.length_map] at hwidth
  omega

/-- **Acceptance by a node**: it has to have every signer where the leader has it. -/
theorem LedBlock.verifyPrepareQuorum_iff (h : LedBlock X e cycle pr final)
    (hone : (e.view cycle).Distinguishes X final.blockHash pr.prepareSigs) (hn : 4 ≤ e.peers.length)
    (hq : 2 * e.peers.length ≤ 3 * pr.prepareSigs.entries.length) {e' : Engine}
    (hsame : (e.view cycle).SameSet (e'.view cycle)) :
    e'.verifyPrepareQuorum X cycle final = true ↔ Aligned e.order e'.order pr.prepareSigs.of := by
  have hlen : e'.order.length = e.order.length := hsame.order.length_eq
  have hpeers : e'.peers.length = e.peers.length := by simpa [Engine.order] using hlen
  obtain ⟨hmany, hsigs, hbitmap⟩ := h.quorum hn hq
  have hread : Attributed (e'.ActiveSignature X cycle · final.blockHash ·) e'.order (bitSet final.prepareSigsBitmap)
      final.prepareSigs ↔ Aligned e.order e'.order pr.prepareSigs.of := by
    rw [h.bitmap, h.payload]
    exact attributed_iff (fun a s ha hs => h.verifies hsame ha hs)
      (fun a s b ha hs hb hver => hsame.eq_signer hone ha hs hb hver) hlen
  have hsigned : (∀ i p, e'.peers[i]? = some p → bitSet final.prepareSigsBitmap i = true →
      e'.SignedAt X cycle final p i) ↔ Attributed (e'.ActiveSignature X cycle · final.blockHash ·) e'.order
        (bitSet final.prepareSigsBitmap) final.prepareSigs := by
    simp only [Attributed, Engine.order, List.getElem?_map, Option.map_eq_some_iff, forall_exists_index, and_imp,
      forall_apply_eq_imp_iff₂]
    rfl
  have hmarks : countBitsBefore final.prepareSigsBitmap e'.peers.length = final.prepareSigs.length := by
    rw [hpeers, countBitsBefore, h.bitmap, h.payload, ← rank_marks_length, Engine.order, List.length_map]
    rfl
  have hquorum : (if final.labelledDegraded then 1 else quorumRequired e'.peers.length) ≤ final.prepareSigs.length := by
    rw [hpeers]
    split
    · exact hsigs
    · exact hmany
  rw [Gleipnir.verifyPrepareQuorum_iff, hsigned, hread, hmarks, and_iff_left hquorum,
    and_iff_right ⟨List.ne_nil_of_length_pos hbitmap, List.ne_nil_of_length_pos hsigs⟩]

/-- The anchor is the block before: nothing for the first one, the hash and the index of the predecessor for any other. -/
def LightClient.TrustAnchor.Precedes (anchor : TrustAnchor) (index : UInt64) (prevHash : Bytes) : Prop :=
  anchor.blockHash = none ∧ index = 0 ∨ anchor.blockHash = some prevHash ∧ index = anchor.blockIndex + 1

theorem checkLinkage_of_precedes {anchor : TrustAnchor} {block : Block} (h : anchor.Precedes block.index block.prevHash) :
    checkLinkage block anchor = .ok () := by
  unfold checkLinkage
  obtain ⟨hnone, hindex⟩ | ⟨hsome, hindex⟩ := h
  · simp [hnone, hindex]
  · simp [hsome, hindex]

/-- Two lists of the same identities pass for the same set. -/
theorem checkValidatorSet_of_perm {declared trusted : List ValidatorInfo}
    (h : (trusted.map (·.validatorID)).Perm (declared.map (·.validatorID))) :
    checkValidatorSet declared trusted = .ok () := by
  have hlen : declared.length = trusted.length := by simpa using h.length_eq.symm
  have hall : (trusted.all fun v => (declared.map (·.validatorID)).contains v.validatorID) = true := by
    rw [List.all_eq_true]
    intro v hv
    rw [List.contains_iff_mem]
    exact h.mem_iff.1 (List.mem_map_of_mem hv)
  unfold checkValidatorSet
  rw [if_neg (not_not.2 hlen), hall]
  rfl

/-- **Acceptance by a light client**: the same condition on the order of the validators of its anchor. -/
theorem LedBlock.accepts_iff (h : LedBlock X e cycle pr final)
    (hone : (e.view cycle).Distinguishes X final.blockHash pr.prepareSigs) (hn : 4 ≤ e.peers.length)
    (hq : 2 * e.peers.length ≤ 3 * pr.prepareSigs.entries.length) (hself : e.node.uid.rootID ∈ e.order)
    (hsigns : (e.view cycle).Verifies X e.node.uid.rootID final.blockHash final.commitSig) {anchor : TrustAnchor}
    (hsame : (e.view cycle).SameSet (anchor.view X cycle)) (hprev : anchor.Precedes cycle e.prevHash) :
    Accepts X anchor final ↔ Aligned e.order (anchor.view X cycle).order pr.prepareSigs.of := by
  have hlen : anchor.validators.length = e.peers.length := by
    have hperm := hsame.order.length_eq
    simpa [TrustAnchor.view, Engine.view, Engine.order] using hperm
  obtain ⟨hmany, hsigs, hbitmap⟩ := h.quorum hn hq
  have hverifies : ∀ id sig, verifiesUnder X (anchor.keys X final.index) id final.blockHash sig = true ↔
      (anchor.view X cycle).Verifies X id final.blockHash sig := by
    intro id sig
    rw [h.index]
    exact verifiesUnder_iff X
  have hpairs : (∀ x ∈ final.prepareSigs.zip (markedPositions final.prepareSigsBitmap),
      ∃ v, anchor.validators[x.2]? = some v ∧
        verifiesUnder X (anchor.keys X final.index) v.validatorID final.blockHash x.1 = true) ↔
      Aligned e.order (anchor.view X cycle).order pr.prepareSigs.of := by
    rw [← paired_iff (fun a s ha hs => h.verifies hsame ha hs)
      (fun a s b ha hs hb hver => hsame.eq_signer hone ha hs hb hver) h.width]
    simp only [hverifies, markedPositions, h.bitmap, h.payload, TrustAnchor.view, List.getElem?_map,
      Option.map_eq_some_iff, exists_exists_and_eq_and]
  rw [LightClient.accepts_iff, ← hpairs]
  constructor
  · exact fun hver => hver.signed
  · intro hsigned
    have hmember : ∀ id ∈ e.order, ∃ v ∈ anchor.validators, v.validatorID = id := fun id hid =>
      List.mem_map.1 (hsame.order.mem_iff.2 hid)
    have hdeclared : (anchor.validators.map (·.validatorID)).Perm (final.validators.map (·.validatorID)) := by
      rw [h.validators, List.map_map]
      exact hsame.order
    exact {
      version := h.version
      trusting := fun hnil => by
        rw [hnil] at hlen
        exact absurd hlen (by simp; omega)
      linked := checkLinkage_of_precedes (by rwa [h.index, h.prevHash])
      declared := checkValidatorSet_of_perm hdeclared
      hash := h.hash
      proposer := h.proposer ▸ hmember _ hself
      paired := by
        rw [markedPositions, h.bitmap, h.payload]
        exact length_filter_marks h.width
      announced := fun hfew => absurd hfew (by simp only [degradedThreshold]; omega)
      quorum := by
        rw [hlen, requiredQuorum, if_neg (by simp only [degradedThreshold]; omega), normalQuorum, if_neg (by omega)]
        exact hmany
      signed := hsigned
      committed := by
        rw [hverifies, h.proposer]
        exact (hsame.verifies hself).2 hsigns }

/-- **Who accepts the final block of a leader.** -/
theorem final_accepted_iff (h : Leads X e cycle pr final) (hn : 4 ≤ e.peers.length)
    (hself : e.node.uid.rootID ∈ e.order) (hq : 2 * e.peers.length ≤ 3 * pr.prepareSigs.entries.length)
    (hone : (e.view cycle).Distinguishes X final.blockHash pr.prepareSigs)
    (hsigns : ∀ msg, (e.view cycle).Verifies X e.node.uid.rootID msg (signDilithium X e.node.uid.secretKey msg)) :
    (∀ e' : Engine, (e.view cycle).SameSet (e'.view cycle) →
      (e'.verifyPrepareQuorum X cycle final = true ↔ Aligned e.order e'.order pr.prepareSigs.of)) ∧
    ∀ anchor : TrustAnchor, (e.view cycle).SameSet (anchor.view X cycle) → anchor.Precedes cycle e.prevHash →
      (Accepts X anchor final ↔ Aligned e.order (anchor.view X cycle).order pr.prepareSigs.of) := by
  have hled := ledBlock_of_leads h
  refine ⟨fun e' hsame => hled.verifyPrepareQuorum_iff hone hn hq hsame, fun anchor hsame hprev => ?_⟩
  refine hled.accepts_iff hone hn hq hself ?_ hsame hprev
  rw [hled.commitSig]
  exact hsigns _

/-! ## Lists with the node itself first -/

/-- The leader's own signature is among those it collects. -/
theorem LedBlock.signs_own (h : LedBlock X e cycle pr final) (hself : e.node.uid.rootID ∈ e.order)
    (hsigns : (e.view cycle).Verifies X e.node.uid.rootID final.blockHash final.commitSig) :
    (pr.prepareSigs.of e.node.uid.rootID).isSome := by
  obtain ⟨p, hp, hroot⟩ := List.mem_map.1 hself
  have hid : (p.uid.id == e.node.uid.id) = true := by
    rw [beq_iff_eq, UIDZeroSoulbound.id, hroot]
    rfl
  cases hfind : e.peers.find? fun p => p.uid.id == e.node.uid.id with
  | none => exact absurd hid (List.find?_eq_none.1 hfind p hp)
  | some q =>
    have hq : q.uid.rootID = e.node.uid.rootID := UIDZeroSoulbound.id_inj (by simpa using List.find?_some hfind)
    exact AList.lookup_isSome.2 (h.own q hfind (by rwa [hq]))

/-- Where the leader is first on its own list, it is first on the list of everyone who accepts. -/
theorem LedBlock.head_of_aligned (h : LedBlock X e cycle pr final) (hself : e.order.head? = some e.node.uid.rootID)
    (hsigns : (e.view cycle).Verifies X e.node.uid.rootID final.blockHash final.commitSig) {order : List RootID}
    (ha : Aligned e.order order pr.prepareSigs.of) : order.head? = some e.node.uid.rootID := by
  rw [List.head?_eq_getElem?] at hself ⊢
  exact ha 0 _ hself (h.signs_own (List.mem_of_getElem? hself) hsigns)

/-- **With lists from `parsePeers` no other node accepts**: the leader has itself at the first position, and signs; everyone
else has somebody else there. -/
theorem selfFirst_refuses {files files' : UIDFiles} {spec spec' : String} {e' : Engine} (h : Leads X e cycle pr final)
    (hn : 4 ≤ e.peers.length) (hq : 2 * e.peers.length ≤ 3 * pr.prepareSigs.entries.length)
    (hone : (e.view cycle).Distinguishes X final.blockHash pr.prepareSigs)
    (hsigns : ∀ msg, (e.view cycle).Verifies X e.node.uid.rootID msg (signDilithium X e.node.uid.secretKey msg))
    (hlist : parsePeers files spec (some e.node.uid) e.node.addr = .ok e.peers)
    (hlist' : parsePeers files' spec' (some e'.node.uid) e'.node.addr = .ok e'.peers)
    (hother : e'.node.uid.rootID ≠ e.node.uid.rootID) (hsame : (e.view cycle).SameSet (e'.view cycle)) :
    e'.verifyPrepareQuorum X cycle final = false := by
  have hfirst : ∀ {files : UIDFiles} {spec : String} {e : Engine},
      parsePeers files spec (some e.node.uid) e.node.addr = .ok e.peers → e.peers ≠ [] →
        e.order.head? = some e.node.uid.rootID := by
    intro files spec e hlist hne
    obtain ⟨uid, others, huid, hpeers, -⟩ := parsePeers_ok hlist hne
    obtain rfl := Option.some.inj huid
    rw [Engine.order, hpeers]
    rfl
  have hled := ledBlock_of_leads h
  have hlen : e'.peers.length = e.peers.length := by simpa [Engine.view, Engine.order] using hsame.order.length_eq
  have hne : ∀ {e : Engine}, 4 ≤ e.peers.length → e.peers ≠ [] := fun hfour => List.ne_nil_of_length_pos (by omega)
  rw [Bool.eq_false_iff, ne_eq, hled.verifyPrepareQuorum_iff hone hn hq hsame]
  intro haligned
  have hhead := hled.head_of_aligned (hfirst hlist (hne hn)) (by rw [hled.commitSig]; exact hsigns _) haligned
  rw [hfirst hlist' (hne (hlen ▸ hn))] at hhead
  exact hother (Option.some.inj hhead)

end Acceptance

/-! ## Before any rotation -/

/-- A view of registered validators whose keys have not been rotated. -/
structure View.Registers (v : View) (vs : List ValidatorInfo) : Prop where
  order : v.order = vs.map (·.validatorID)
  keys : ∀ x ∈ vs, v.keys x.validatorID = some [x.dilithium3PK]

/-- Two lists of the same validators. -/
theorem View.Registers.sameSet {v w : View} {vs ws : List ValidatorInfo} (hv : v.Registers vs) (hw : w.Registers ws)
    (hperm : ws.Perm vs) : v.SameSet w := by
  refine ⟨?_, fun id hid => ?_⟩
  · rw [hv.order, hw.order]
    exact hperm.map _
  · rw [hv.order] at hid
    obtain ⟨x, hx, rfl⟩ := List.mem_map.1 hid
    rw [hv.keys x hx, hw.keys x (hperm.mem_iff.2 hx)]

/-- With distinct identities everyone is registered with their own key. -/
theorem lookup_validatorKeys {vs : List ValidatorInfo} (hd : (vs.map (·.validatorID)).Nodup) {v : ValidatorInfo}
    (hv : v ∈ vs) : (validatorKeys vs).lookup v.validatorID = some v.dilithium3PK := by
  obtain ⟨before, after, rfl⟩ := List.append_of_mem hv
  rw [List.map_append, List.map_cons] at hd
  have hafter : v.validatorID ∉ after.map (·.validatorID) := (List.nodup_cons.1 hd.of_append_right).1
  rw [validatorKeys, List.foldl_append, List.foldl_cons]
  refine List.foldlRecOn (motive := fun m : AList fun _ : RootID => Arr 1952 => m.lookup v.validatorID = some v.dilithium3PK)
    after _ (AList.lookup_insert _) ?_
  intro m hm w hw
  have hne : v.validatorID ≠ w.validatorID := fun heq => hafter (List.mem_map.2 ⟨w, hw, heq.symm⟩)
  rw [AList.lookup_insert_ne hne, hm]

theorem getActivePublicKey_registered {kv : KeyRotationValidator} (vs : List ValidatorInfo)
    (hkeys : kv.validators = validatorKeys vs) (hrotations : ∀ id, kv.rotations id = [])
    (hd : (vs.map (·.validatorID)).Nodup) {v : ValidatorInfo} (hv : v ∈ vs) (cycle : UInt64) :
    kv.getActivePublicKey v.validatorID cycle = some [v.dilithium3PK] := by
  rw [KeyRotationValidator.getActivePublicKey, hkeys, lookup_validatorKeys hd hv, hrotations]
  rfl

/-- A new engine. -/
theorem registers_newWithPeers {node : Node} {g : Bool} {peers : List Peer} (hne : peers ≠ [])
    (hd : (peers.map (·.uid.rootID)).Nodup) (cycle : UInt64) :
    ((Engine.newWithPeers node g peers).view cycle).Registers (peers.map Peer.validatorInfo) := by
  have horder : (peers.map Peer.validatorInfo).map (·.validatorID) = peers.map (·.uid.rootID) := List.map_map
  refine ⟨horder.symm, fun x hx => ?_⟩
  refine getActivePublicKey_registered (peers.map Peer.validatorInfo) ?_ ?_ (horder ▸ hd) hx cycle
  · simp [Engine.newWithPeers, hne, KeyRotationValidator.setValidatorSet]
  · simp [Engine.newWithPeers, hne, KeyRotationValidator.setValidatorSet, newEngine, KeyRotationValidator.new]

/-- A light client that knows no rotations. -/
theorem registers_anchor {anchor : TrustAnchor} (hrotations : anchor.rotations = [])
    (hd : (anchor.validators.map (·.validatorID)).Nodup) (cycle : UInt64) :
    (anchor.view X cycle).Registers anchor.validators := by
  have hresolver : newKeyResolver X anchor =
      KeyRotationValidator.new anchor.validators anchor.blockIndex rotationConfig := by
    rw [newKeyResolver, hrotations]
    rfl
  refine ⟨rfl, fun x hx => ?_⟩
  exact getActivePublicKey_registered _ (by rw [hresolver]; rfl) (by rw [hresolver]; exact fun _ => rfl) hd hx cycle

namespace Sample

/-- The files of the daemons: the first character of a path names the identity in it. -/
def uidFiles : UIDFiles where
  readFile := fun path => .ok path.toUTF8.toList
  unmarshalCBOR := fun data => .ok (uid (data.headD 0 - 48))

/-- A validator at its address. -/
def member (k : UInt8) (addr : String) : Peer := ⟨uid k, addr, true⟩

/-- The list of the first daemon. -/
def firstList : List Peer := [member 1 "a", member 2 "b", member 3 "c", member 4 "d"]

/-- The list of the second daemon. -/
def secondList : List Peer := [member 2 "b", member 1 "a", member 3 "c", member 4 "d"]

/-- The lists are those that the daemons parse. -/
def parsed : Computed (firstList, secondList) fun x =>
    parsePeers uidFiles "b=2, c=3, d=4" (some (uid 1)) "a" = .ok x.1 ∧
      parsePeers uidFiles "a=1, c=3, d=4" (some (uid 2)) "b" = .ok x.2 :=
  computed _ (by decide +kernel)

/-- The first daemon, whom the VRF elects. -/
def leader : Engine := Engine.newWithPeers ⟨uid 1, "a"⟩ true firstList

/-- What a phase returned. -/
def returned {ε α : Type} : Exit (Except ε α) → Option α
  | .done (.ok a) => some a
  | _ => none

theorem returned_eq_some {ε α : Type} {x : Exit (Except ε α)} {a : α} (h : returned x = some a) : x = .done (.ok a) := by
  unfold returned at h
  split at h
  · cases h
    rfl
  · cases h

/-- A bus with an entry and the VRF proofs of the other validators. -/
def opening : MemoryBus := { MemoryBus.new with
  entries := [entry 9]
  vrfProofs := fun _ => [2, 3, 4].map fun k => vrfMsg k 0 (List.replicate 32 0) }

/-- The first PREPARE phase of the leader. -/
def proposing : (Exit (Except PrepareError PrepareResult) × Engine) × Trace × MemoryBus :=
  serveOn opening (runPreparePhase prims 0 leader.st.root [entry 9] false 3 leader)

/-- The bus after the second and the third validator have voted. -/
def voted (pr₁ : PrepareResult) : MemoryBus := { proposing.2.2 with
  sigs := fun c => proposing.2.2.sigs c ++ [2, 3].map fun k =>
    ⟨0, signDilithium prims (uid k).secretKey pr₁.block.blockHash, (uid k).id⟩ }

/-- The quorum check of the leader. -/
def checking (pr₁ : PrepareResult) : (Exit (Except PrepareError PrepareResult) × Engine) × Trace × MemoryBus :=
  serveOn (voted pr₁) (runPreparePhase prims 0 leader.st.root [entry 9] true 3 proposing.1.2)

/-- The COMMIT phase. -/
def finalising (pr₁ pr : PrepareResult) : (Exit (Except CommitError Block) × Engine) × Trace × MemoryBus :=
  serveOn (checking pr₁).2.2 (runCommitPhase prims 0 pr (checking pr₁).1.2)

/-- The fields of a block, compared one by one. -/
def sameFields (b c : Block) : Prop :=
  b.index = c.index ∧ b.prevHash = c.prevHash ∧ b.stateRoot = c.stateRoot ∧ b.proposer = c.proposer ∧
    b.anchored = c.anchored ∧ b.lambda1 = c.lambda1 ∧ b.timestamp = c.timestamp ∧ b.validators = c.validators ∧
    b.quorum = c.quorum ∧ b.blockHash = c.blockHash ∧ b.protocolVersion = c.protocolVersion ∧
    b.prepareSigsBitmap = c.prepareSigsBitmap ∧ b.prepareSigs = c.prepareSigs ∧ b.commitSig = c.commitSig ∧
    b.externalAnchors = c.externalAnchors ∧ b.keyRotationEpoch = c.keyRotationEpoch ∧ b.legacyAnchor = c.legacyAnchor ∧
    b.metadata.entries = c.metadata.entries
  deriving Decidable

theorem eq_of_sameFields {b c : Block} (h : sameFields b c) : b = c := by
  cases b
  cases c
  simp only [sameFields, ← AList.ext_iff] at h
  simp only [h]

/-- The PREPARE result of the leader and its final block. -/
def led : Option (PrepareResult × Block) := do
  let pr₁ ← returned proposing.1.1
  let pr ← returned (checking pr₁).1.1
  let final ← returned (finalising pr₁ pr).1.1
  if pr₁.leaderID = leader.node.uid.id ∧ pr.leaderID = leader.node.uid.id ∧ sameFields pr.block pr₁.block then
    some (pr, final)
  else none

/-- Engine code on a bus that returns a value. -/
theorem runs_returned {ε α : Type} {m : EngineM (Except ε α)} {e : Engine} {b : MemoryBus}
    {x : (Exit (Except ε α) × Engine) × Trace × MemoryBus} (hx : serveOn b (m e) = x) {a : α}
    (h : returned x.1.1 = some a) : Runs m e x.2.1 (.done (.ok a)) x.1.2 := by
  subst hx
  rw [← returned_eq_some h]
  exact run_serveOn b (m e)

theorem leads_of_led {pr : PrepareResult} {final : Block} (h : led = some (pr, final)) : Leads prims leader 0 pr final := by
  unfold led at h
  obtain ⟨pr₁, h₁, h⟩ := Option.bind_eq_some_iff.1 h
  obtain ⟨pr', h₂, h⟩ := Option.bind_eq_some_iff.1 h
  obtain ⟨final', h₃, h⟩ := Option.bind_eq_some_iff.1 h
  split at h
  · next hl =>
    cases h
    have hrun₁ := runs_returned (m := runPreparePhase prims 0 leader.st.root [entry 9] false 3) (e := leader)
      (b := opening) (x := proposing) rfl h₁
    have hrun₂ := runs_returned (m := runPreparePhase prims 0 leader.st.root [entry 9] true 3) (e := proposing.1.2)
      (b := voted pr₁) (x := checking pr₁) rfl h₂
    have hrun₃ := runs_returned (m := runCommitPhase prims 0 pr) (e := (checking pr₁).1.2) (b := (checking pr₁).2.2)
      (x := finalising pr₁ pr) rfl h₃
    exact ⟨_, _, _, _, _, _, pr₁, _, _, _, hrun₁, hl.1, hrun₂, hl.2.1, eq_of_sameFields hl.2.2, hrun₃⟩
  · cases h

/-- What can be computed of a quorum whose signatures verify for nobody but their signers. -/
def distinguished (x : PrepareResult × Block) : Bool :=
  2 * leader.peers.length ≤ 3 * x.1.prepareSigs.entries.length && leader.order.all fun a =>
    (x.1.prepareSigs.of a).all fun sig => leader.order.all fun b =>
      b == a || !leader.verifySignatureWithOverlap prims b x.2.blockHash sig 0

/-- Three of the four validators sign, and no signature verifies for anyone but its signer. -/
theorem leader_leads : ∃ pr final, Leads prims leader 0 pr final ∧
    2 * leader.peers.length ≤ 3 * pr.prepareSigs.entries.length ∧
    (leader.view 0).Distinguishes prims final.blockHash pr.prepareSigs := by
  have h : led.any distinguished = true := by decide +kernel
  obtain ⟨⟨pr, final⟩, hled, hfacts⟩ := (Option.any_eq_true _ _).1 h
  simp only [distinguished, Bool.and_eq_true, decide_eq_true_eq, List.all_eq_true, Option.all_eq_true, Bool.or_eq_true,
    beq_iff_eq, Bool.not_eq_true'] at hfacts
  obtain ⟨hq, hone⟩ := hfacts
  refine ⟨pr, final, leads_of_led hled, hq, fun a ha sig hsig b hb hver => ?_⟩
  refine (hone a ha sig hsig b hb).resolve_right fun hrefused => ?_
  rw [(verifySignatureWithOverlap_iff prims).2 hver] at hrefused
  cases hrefused

theorem nodup_firstList : (firstList.map (·.uid.rootID)).Nodup := by decide

theorem registers_leader : (leader.view 0).Registers (firstList.map Peer.validatorInfo) :=
  registers_newWithPeers (by simp [firstList]) nodup_firstList 0

theorem leader_signs (msg : Bytes) :
    (leader.view 0).Verifies prims leader.node.uid.rootID msg (signDilithium prims leader.node.uid.secretKey msg) :=
  ⟨_, registers_leader.keys (member 1 "a").validatorInfo (List.mem_map_of_mem List.mem_cons_self), _, List.mem_cons_self,
    (verify_stamp 1 _ msg).2 rfl⟩

/-- A node and a light client with the leader's own order accept its block. -/
theorem same_order_accepts : ∃ pr final, Leads prims leader 0 pr final ∧
    (Engine.newWithPeers ⟨uid 2, "b"⟩ true firstList).verifyPrepareQuorum prims 0 final = true ∧
    Accepts prims ⟨0, none, firstList.map Peer.validatorInfo, []⟩ final := by
  obtain ⟨pr, final, hleads, hq, hone⟩ := leader_leads
  obtain ⟨hnode, hclient⟩ := final_accepted_iff hleads (by decide) List.mem_cons_self hq hone leader_signs
  have hregisters : (TrustAnchor.view prims ⟨0, none, firstList.map Peer.validatorInfo, []⟩ 0).Registers
      (firstList.map Peer.validatorInfo) := registers_anchor rfl (by decide) 0
  have hpeers : ((Engine.newWithPeers ⟨uid 2, "b"⟩ true firstList).view 0).Registers (firstList.map Peer.validatorInfo) :=
    registers_newWithPeers (by simp [firstList]) nodup_firstList 0
  refine ⟨pr, final, hleads, ?_, ?_⟩
  · refine (hnode _ (registers_leader.sameSet hpeers (.refl _))).2 ?_
    exact fun i a ha _ => ha
  · refine (hclient _ (registers_leader.sameSet hregisters (.refl _)) (.inl ⟨rfl, rfl⟩)).2 ?_
    exact fun i a ha _ => ha

/-- The second daemon. -/
def follower : Engine := Engine.newWithPeers ⟨uid 2, "b"⟩ true secondList

theorem perm_lists : (secondList.map Peer.validatorInfo).Perm (firstList.map Peer.validatorInfo) :=
  (List.Perm.swap _ _ _).map _

/-- Four daemons: the second one, whose list starts with itself, refuses the block that the first one leads, and so does a
light client that lists the validators like the second one. -/
theorem parsed_lists_refuse : ∃ pr final, leader.Fresh ∧ follower.Fresh ∧
    parsePeers uidFiles "b=2, c=3, d=4" (some leader.node.uid) leader.node.addr = .ok leader.peers ∧
    parsePeers uidFiles "a=1, c=3, d=4" (some follower.node.uid) follower.node.addr = .ok follower.peers ∧
    leader.order.Nodup ∧ leader.order.length = 4 ∧ (leader.view 0).SameSet (follower.view 0) ∧
    Leads prims leader 0 pr final ∧ 2 * leader.peers.length ≤ 3 * pr.prepareSigs.entries.length ∧
    follower.verifyPrepareQuorum prims 0 final = false ∧
    ∃ anchor : TrustAnchor, (leader.view 0).SameSet (anchor.view prims 0) ∧ anchor.Precedes 0 leader.prevHash ∧
      ¬ Accepts prims anchor final := by
  obtain ⟨pr, final, hleads, hq, hone⟩ := leader_leads
  have hled := ledBlock_of_leads hleads
  have hcommit : (leader.view 0).Verifies prims leader.node.uid.rootID final.blockHash final.commitSig := by
    rw [hled.commitSig]
    exact leader_signs _
  have hsame : (leader.view 0).SameSet (follower.view 0) :=
    registers_leader.sameSet (registers_newWithPeers (by simp [secondList]) (by decide) 0) perm_lists
  have hsame' : (leader.view 0).SameSet
      (TrustAnchor.view prims ⟨0, none, secondList.map Peer.validatorInfo, []⟩ 0) :=
    registers_leader.sameSet (registers_anchor rfl (by decide) 0) perm_lists
  obtain ⟨_, rfl, hfirst, hsecond⟩ := parsed
  refine ⟨pr, final, .inr ⟨_, _, _, rfl⟩, .inr ⟨_, _, _, rfl⟩, hfirst, hsecond, nodup_firstList, rfl,
    hsame, hleads, hq, ?_, _, hsame', .inl ⟨rfl, rfl⟩, ?_⟩
  · exact selfFirst_refuses hleads (by decide) hq hone leader_signs hfirst hsecond (by decide) hsame
  · rw [hled.accepts_iff hone (by decide) hq List.mem_cons_self hcommit hsame' (.inl ⟨rfl, rfl⟩)]
    intro haligned
    have hhead := hled.head_of_aligned rfl hcommit haligned
    exact absurd hhead (by decide)

end Sample

end Gleipnir
