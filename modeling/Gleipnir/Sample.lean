import Gleipnir.Consensus.Network
import Gleipnir.SmtSpec

/-!
# A network to compute with

An instance of `Prims` that evaluates quickly, and validators over it. A signature is the first byte of the signer's
key followed by a digest of the message; the VRF output of a validator is its key. The instance shows that hypotheses can be
met and that an execution exists; nothing is proved from its weakness as cryptography.
-/

namespace Gleipnir.Sample

open Atomic

/-- A polynomial digest. -/
def digest (bs : Bytes) : Hash :=
  Arr.copy 32 (le64 (UInt64.ofNat (bs.foldl (fun h b => (h * 257 + b.toNat + 1) % 2 ^ 64) 7)))

/-- The signature of the key that starts with `k`, of the length of a Dilithium3 signature. -/
def stamp (k : UInt8) (msg : Bytes) : Bytes := k :: (digest msg).toList ++ List.replicate 3276 0

/-- The fields of a rotation that its hash covers. -/
def rotationBytes (label : String) (submitter : RootID) (newKey : Arr 1952) (effective expiry : UInt64) : Bytes :=
  label.toUTF8.toList ++ submitter.toList ++ newKey.toList.take 1 ++ le64 effective ++ le64 expiry

def prims : Prims where
  blake3 := digest
  sha256 := digest
  mldsaSign := fun sk msg => some (stamp (sk.headD 0) msg)
  mldsaVerify := fun pk msg sig => sig.take 33 == (stamp (pk.toList.headD 0) msg).take 33
  ecvrfProve := fun sk alpha => some ⟨Arr.copy 32 sk, digest alpha, Arr.zero 32⟩
  ecvrfVerify := fun pk alpha proof => proof.gamma == pk && proof.c == digest alpha
  cborEntries := fun entries => entries.flatMap fun e => e.hash.toList
  cborQuorum := fun q => [UInt8.ofNat q.totalValidators.toNat, UInt8.ofNat q.requiredSigs.toNat]
  cborRotation := fun r =>
    some (rotationBytes r.label r.submitter r.newPublicKey r.effectiveCycle r.expiryCycle)
  cborRotationPayload := fun r =>
    some (rotationBytes r.label r.submitter r.newPublicKey r.effectiveCycle r.expiryCycle)
  cborMandate := fun m => some (m.authority.toList ++ le64 m.version)
  cborState := fun cycle _ _ _ => le64 cycle
  fiedler := fun nodes _ => nodes.entries.length

/-- The identity whose keys start with `k`. -/
def uid (k : UInt8) : UIDZeroSoulbound where
  rootID := Arr.copy 16 [k]
  publicKey := Arr.copy 1952 [k]
  secretKey := k :: List.replicate 31 0
  vrfPublicKey := Arr.copy 32 [k]
  vrfSecretKey := k :: List.replicate 31 0
  contractHash := Arr.zero 32

theorem length_stamp (k : UInt8) (msg : Bytes) : (stamp k msg).length = dilithium3SignatureSize := by
  rw [stamp, List.length_append, List.length_cons, List.Vector.toList_length, List.length_replicate]
  rfl

theorem take_stamp (k : UInt8) (msg : Bytes) : (stamp k msg).take 33 = k :: (digest msg).toList := by
  rw [stamp, List.take_left']
  simp

theorem sign_stamp (k : UInt8) (msg : Bytes) : signDilithium prims (uid k).secretKey msg = stamp k msg := by
  have hlen : (uid k).secretKey.length = dilithium3SecretKeySize := rfl
  rw [signDilithium, if_neg (not_not.2 hlen)]
  rfl

/-- A signature of a sample identity verifies under the keys that start as its own does. -/
theorem verify_stamp (k : UInt8) (pk : Arr 1952) (msg : Bytes) :
    verifyDilithium prims pk msg (signDilithium prims (uid k).secretKey msg) = true ↔ pk.toList.headD 0 = k := by
  rw [sign_stamp, verifyDilithium, if_neg (not_not.2 (length_stamp k msg))]
  change ((stamp k msg).take 33 == (stamp (pk.toList.headD 0) msg).take 33) = true ↔ _
  rw [take_stamp, take_stamp, beq_iff_eq, List.cons.injEq, eq_comm]
  exact and_iff_left rfl

def node (k : UInt8) : Node := ⟨uid k, ""⟩

def peer (k : UInt8) : Peer := ⟨uid k, "", true⟩

/-- Four validators; the engine is that of the second. -/
def four : Engine := Engine.newWithPeers (node 2) true [peer 1, peer 2, peer 3, peer 4]

/-- Two validators; the engine is that of `k`. The first validator is always elected. -/
def two (k : UInt8) : Engine := Engine.newWithPeers (node k) true [peer 1, peer 2]

/-- An entry of the validator `k`. -/
def entry (k : UInt8) : ProvenanceEntry where
  hash := Arr.copy 32 (List.replicate 31 0 ++ [k])
  submitter := Arr.copy 16 [k]
  timestamp := 1
  label := "entry"

/-- The record of the validator `k`. -/
def info (k : UInt8) : ValidatorInfo := (peer k).validatorInfo

/-- A rotation of the validator `k` to the key that starts with `new`, authorised by the one that starts with `old`. -/
def rotationTo (k old new : UInt8) (effective expiry : UInt64) : KeyRotationEntry :=
  let draft : KeyRotationEntry := {
    hash := Arr.zero 32
    submitter := Arr.copy 16 [k]
    timestamp := 1
    label := keyRotationLabel
    newPublicKey := Arr.copy 1952 [new]
    newVRFPublicKey := Arr.copy 32 [new]
    effectiveCycle := effective
    expiryCycle := expiry
    signatureOld := []
    signatureNew := [] }
  let payload := (draft.payloadBytes prims).getD []
  { draft with hash := draft.computeHash prims, signatureOld := stamp old payload, signatureNew := stamp new payload }

/-- A block with the given hashed fields and no certificate, its hash included. -/
def bareBlock (index : UInt64) (proposer : UInt8) (anchored : List ProvenanceEntry) (stateRoot : Bytes)
    (quorum : QuorumConfig) : Block :=
  let draft : Block := {
    index, stateRoot, anchored, quorum
    prevHash := List.replicate 32 0
    proposer := Arr.copy 16 [proposer]
    lambda1 := 0
    timestamp := 1
    validators := []
    blockHash := []
    protocolVersion := 2
    prepareSigsBitmap := []
    prepareSigs := []
    commitSig := []
    externalAnchors := []
    keyRotationEpoch := 0
    legacyAnchor := []
    metadata := ∅ }
  { draft with blockHash := (computeBlockHash prims draft) }

/-- The root after anchoring the entries in an empty tree. -/
def rootOf (entries : List ProvenanceEntry) : Bytes := ((SparseMerkleTree.new 256).insertHashes prims entries).root.toList

/-- The VRF proof of the validator `k` for a cycle that starts at `root`. -/
def vrfMsg (k : UInt8) (cycle : UInt64) (root : Bytes) : VRFProofMsg :=
  ⟨cycle, marshalVRFProof ⟨Arr.copy 32 [k], digest (makeAlpha cycle root), Arr.zero 32⟩, (uid k).id⟩

/-- The degraded marker, as metadata. -/
def degradedMetadata : AList fun _ : String => Bytes := AList.singleton degradedLabel trueBytes

/-- Run a program on a bus at the time `1`, where no wait lasts. -/
def serveOn {α : Type} (b : MemoryBus) (p : Prog Op Op.Res α) : α × Trace × MemoryBus :=
  serve (MemoryBus.answer 1 ⟨0, false⟩) p b

variable {α : Type} {C : CallCondition} {texts : List Bytes}

theorem run_serveOn (b : MemoryBus) (p : Prog Op Op.Res α) : Run p (serveOn b p).2.1 (serveOn b p).1 :=
  run_serve _ p b

/-- A body that ends in `x` on a bus. -/
theorem runs_serveOn (b : MemoryBus) (m : EngineM α) (e : Engine) {x : Exit α} (h : (serveOn b (m e)).1.1 = x) :
    Body.Runs m e (serveOn b (m e)).2.1 x (serveOn b (m e)).1.2 := by
  rw [← h]
  exact run_serveOn b (m e)

/-- A call of an engine on a bus. -/
theorem step_serveOn (c : Call) (e : Engine) (b : MemoryBus) :
    EngineStep prims e ⟨c, (serveOn b (c.prog prims e)).2.1⟩ (serveOn b (c.prog prims e)).1 :=
  run_serveOn b (c.prog prims e)

/-- Nobody else uses the bus meanwhile. -/
theorem servedBy_serveOn (b : MemoryBus) (p : Prog Op Op.Res α) : b.ServedBy (serveOn b p).2.1 (serveOn b p).2.2 := by
  have h := Served.append_serve (F := fun b b' : MemoryBus => ∃ o r, b.Serves o r b')
    (O := fun _ b ev b' => b.Serves ev.op ev.res b') (MemoryBus.answer 1 ⟨0, false⟩)
    (fun _ b o => ⟨1, ⟨0, false⟩, rfl⟩) p (Served.nil (b := b))
  rwa [List.nil_append] at h

/-- Serve calls of one engine one after the other. -/
def calls : List Call → Engine → MemoryBus → List (Transition Engine Called) × Engine × MemoryBus
  | [], e, b => ([], e, b)
  | c :: cs, e, b =>
    let x := serveOn b (c.prog prims e)
    let rest := calls cs x.1 x.2.2
    (⟨e, ⟨c, x.2.1⟩, x.1⟩ :: rest.1, rest.2)

theorem run_calls : ∀ (cs : List Call) (e : Engine) (b : MemoryBus),
    EngineRun prims e (calls cs e b).1 (calls cs e b).2.1
  | [], e, _ => .nil e
  | c :: cs, e, b => .cons (run_serveOn b (c.prog prims e)) (run_calls cs _ _)

/-- Serve calls of one engine over another instance. -/
def callsOver (X : Prims) : List Call → Engine → MemoryBus → List (Transition Engine Called) × Engine × MemoryBus
  | [], e, b => ([], e, b)
  | c :: cs, e, b =>
    let x := serveOn b (c.prog X e)
    let rest := callsOver X cs x.1 x.2.2
    (⟨e, ⟨c, x.2.1⟩, x.1⟩ :: rest.1, rest.2)

theorem run_callsOver (X : Prims) (cs : List Call) : ∀ (e : Engine) (b : MemoryBus),
    EngineRun X e (callsOver X cs e b).1 (callsOver X cs e b).2.1 := by
  induction cs with
  | nil => exact fun e _ => .nil e
  | cons c cs ih => exact fun e b => .cons (run_serveOn b (c.prog X e)) (ih _ _)

/-- A value with what an evaluation shows of it. -/
abbrev Computed {α : Type} (a : α) (p : α → Prop) : Type := {x : α // x = a ∧ p x}

/-- Evaluate once, for all the facts that are needed. -/
def computed {α : Type} (a : α) {p : α → Prop} (h : p a) : Computed a p := ⟨a, rfl, h⟩

/-! ## Networks -/

variable {ι : Type} [DecidableEq ι]

/-- Serve calls of the engines of a network one after the other. -/
def schedule : List (ι × Call) → (ι → Engine) → MemoryBus → (ι → Engine) × MemoryBus
  | [], es, b => (es, b)
  | (i, c) :: cs, es, b =>
    let x := serveOn b (c.prog prims (es i))
    schedule cs (Function.update es i x.1) x.2.2

theorem schedule_cons (i : ι) (c : Call) (cs : List (ι × Call)) (es : ι → Engine) (b : MemoryBus) :
    schedule ((i, c) :: cs) es b =
      schedule cs (Function.update es i (serveOn b (c.prog prims (es i))).1) (serveOn b (c.prog prims (es i))).2.2 := rfl

/-- The operations of the scheduled calls meet a condition. -/
def ScheduleMeets (C : CallCondition) : List (ι × Call) → (ι → Engine) → MemoryBus → Prop
  | [], _, _ => True
  | (i, c) :: cs, es, b =>
    (∀ x ∈ serveLog (MemoryBus.answer 1 ⟨0, false⟩) (c.prog prims (es i)) [] b, C (es i) c x.1 x.2.1 x.2.2) ∧
      ScheduleMeets C cs (Function.update es i (serveOn b (c.prog prims (es i))).1) (serveOn b (c.prog prims (es i))).2.2

instance instDecidableScheduleMeets {C : CallCondition} [∀ e c past b ev, Decidable (C e c past b ev)] :
    ∀ (cs : List (ι × Call)) (es : ι → Engine) (b : MemoryBus), Decidable (ScheduleMeets C cs es b)
  | [], _, _ => .isTrue trivial
  | (_, _) :: cs, _, _ => @instDecidableAnd _ _ inferInstance (instDecidableScheduleMeets cs _ _)

/-- A scheduled call is a run of the network; its last move finishes it. -/
theorem run_scheduled (i : ι) (c : Call) (es : ι → Engine) (b : MemoryBus)
    (h : ∀ x ∈ serveLog (MemoryBus.answer 1 ⟨0, false⟩) (c.prog prims (es i)) [] b, C (es i) c x.1 x.2.1 x.2.2) :
    ∃ τ, NetworkRun prims (World.idle es b) τ (World.idle (Function.update es i (serveOn b (c.prog prims (es i))).1)
      (serveOn b (c.prog prims (es i))).2.2) ∧ (∀ x ∈ τ, CallMeets C x) ∧ ∃ x ∈ τ, x.label = .finish i ∧
        x.pre.threads i = .busy (es i) c (serveOn b (c.prog prims (es i))).2.1
          (.ret (serveOn b (c.prog prims (es i))).1) := by
  rw [World.idle_update es i _ b]
  exact path_serve _ (fun _ _ => ⟨1, ⟨0, false⟩, rfl⟩) c rfl h

/-- A schedule is a run of the network. -/
theorem run_schedule (cs : List (ι × Call)) : ∀ (es : ι → Engine) (b : MemoryBus),
    ScheduleMeets C cs es b → ∃ τ, NetworkRun prims (World.idle es b) τ
      (World.idle (schedule cs es b).1 (schedule cs es b).2) ∧ ∀ x ∈ τ, CallMeets C x := by
  induction cs with
  | nil => exact fun es b _ => ⟨[], .nil _, fun _ hx => absurd hx List.not_mem_nil⟩
  | cons ic cs ih =>
    intro es b h
    obtain ⟨i, c⟩ := ic
    obtain ⟨hfirst, hrest⟩ := h
    obtain ⟨τ₁, h₁, hmeets₁, -⟩ := run_scheduled i c es b hfirst
    obtain ⟨τ₂, h₂, hmeets₂⟩ := ih _ _ hrest
    refine ⟨τ₁ ++ τ₂, h₁.append h₂, fun x hx => ?_⟩
    rcases List.mem_append.1 hx with hx | hx
    · exact hmeets₁ x hx
    · exact hmeets₂ x hx

/-! ## Small trees -/

/-- A hash under which the empty subtrees are numbered. It mixes the halves of the other strings of 64 bytes, and keeps the
first bytes of the key and of the value of a leaf. -/
def tagHash (bs : Bytes) : Hash :=
  Arr.copy 32 ((bs.headD 0 + 1) ::
    if bs.length = 64 then
      (if bs.take 32 = bs.drop 32 then [] else 2 :: List.zipWith (fun a b => a + 3 * b) (bs.take 32) (bs.drop 32))
    else 1 :: ((bs.drop 12).take 15 ++ bs.drop 52))

/-- The instance with that hash. -/
def tagging : Prims := { prims with blake3 := tagHash }

/-- Two entries that the tree tells apart at its top. -/
def leftEntry : ProvenanceEntry := { entry 1 with hash := Arr.copy 32 [1] }

def rightEntry : ProvenanceEntry := { entry 1 with hash := Arr.copy 32 (2 :: List.replicate 30 0 ++ [128]) }

/-- The strings have different hashes, none of them zero. -/
def tellsApart (X : Prims) (texts : List Bytes) : Bool :=
  let hashed := texts.map fun s => (X.blake3 s, s)
  hashed.all fun p => p.1 != Arr.zero 32 && hashed.all fun q => p.1 != q.1 || p.2 == q.2

theorem collisionless_of_tellsApart {X : Prims} (h : tellsApart X texts = true) : Collisionless X {s | s ∈ texts} := by
  simp only [tellsApart, List.all_map, List.all_eq_true, Function.comp_apply, Bool.and_eq_true, Bool.or_eq_true, bne_iff_ne,
    beq_iff_eq] at h
  exact ⟨fun s hs s' hs' heq => ((h s hs).2 s' hs').resolve_left (fun hne => hne heq), fun s hs => (h s hs).1⟩

theorem zeroes_tagging (i : Nat) : zeroes tagging i = Arr.copy 32 [UInt8.ofNat i] := by
  induction i with
  | zero => rfl
  | succ i ih =>
    rw [zeroes, parentHash, ih, UInt8.ofNat_add, UInt8.ofNat_one]
    generalize UInt8.ofNat i = b
    have hlen : ((Arr.copy 32 [b] : Hash).toList ++ (Arr.copy 32 [b] : Hash).toList).length = 64 := by simp
    have hhalves : ((Arr.copy 32 [b] : Hash).toList ++ (Arr.copy 32 [b] : Hash).toList).take 32 =
        ((Arr.copy 32 [b] : Hash).toList ++ (Arr.copy 32 [b] : Hash).toList).drop 32 := by simp
    change tagHash _ = _
    rw [tagHash, if_pos hlen, if_pos hhalves]
    rfl

theorem number_inj {i j : Nat} (hi : i < 256) (hj : j < 256)
    (h : (Arr.copy 32 [UInt8.ofNat i] : Hash) = Arr.copy 32 [UInt8.ofNat j]) : i = j := by
  have hbyte := congrArg (fun a : Hash => a.toList[0]?) h
  simp only [Arr.copy, List.Vector.toList] at hbyte
  have hnat := congrArg UInt8.toNat (Option.some.inj hbyte)
  rwa [UInt8.toNat_ofNat_of_lt' hi, UInt8.toNat_ofNat_of_lt' hj] at hnat

/-- The strings have different hashes, and the second byte tells these from the numbers of the empty subtrees. -/
def tagged (texts : List Bytes) : Bool :=
  tellsApart tagging texts && texts.all fun s => (tagging.blake3 s).toList[1]? != some 0

/-- The strings of the empty subtrees, and these ones. -/
def textsWith (texts : List Bytes) : Set Bytes := {s | ∃ i < 255, s = zeroText tagging i} ∪ {s | s ∈ texts}

theorem collisionless_tagged (h : tagged texts = true) : Collisionless tagging (textsWith texts) := by
  simp only [tagged, Bool.and_eq_true, List.all_eq_true, bne_iff_ne] at h
  obtain ⟨happart, hsecond⟩ := h
  have hzero : ∀ i, tagging.blake3 (zeroText tagging i) = Arr.copy 32 [UInt8.ofNat (i + 1)] := fun i => zeroes_tagging (i + 1)
  have hother : ∀ s ∈ texts, ∀ i, tagging.blake3 s ≠ Arr.copy 32 [UInt8.ofNat i] := by
    intro s hs i heq
    refine hsecond s hs ?_
    rw [heq]
    rfl
  have hlisted := collisionless_of_tellsApart happart
  refine ⟨?_, ?_⟩
  · rintro s (⟨i, hi, rfl⟩ | hs) s' (⟨j, hj, rfl⟩ | hs') heq
    · rw [hzero, hzero] at heq
      have hij := number_inj (by omega) (by omega) heq
      obtain rfl : i = j := by omega
      rfl
    · rw [hzero] at heq
      exact absurd heq.symm (hother s' hs' _)
    · rw [hzero] at heq
      exact absurd heq (hother s hs _)
    · exact hlisted.inj hs hs' heq
  · rintro s (⟨i, hi, rfl⟩ | hs) heq
    · rw [hzero] at heq
      have hi0 := number_inj (j := 0) (by omega) (by omega) heq
      omega
    · exact hlisted.nonzero s hs heq

/-- The strings of the nodes that a tree has after each insertion. -/
def grownTexts (kvs : List (Bytes × Bytes)) : List Bytes :=
  kvs.inits.flatMap fun kvs' => ((smtScheme tagging).nodes 256 (trieOf tagging 256 kvs')).map nodeText

theorem treeTexts_subset {kvs : List (Bytes × Bytes)} (h : grownTexts kvs ⊆ texts) :
    treeTexts tagging 256 kvs ⊆ textsWith texts := by
  rintro s (⟨i, hi, rfl⟩ | ⟨kvs', hprefix, n, hn, rfl⟩)
  · exact .inl ⟨i, by omega, rfl⟩
  · exact .inr (h (List.mem_flatMap.2 ⟨kvs', (List.mem_inits _ _).2 hprefix, List.mem_map.2 ⟨n, hn, rfl⟩⟩))

/-- The strings of the nodes that a proof goes through. -/
def climbedTexts (k v : Bytes) (proof : List Hash) : List Bytes :=
  (.leaf k v :: (smtScheme tagging).climbed k 256 proof (leafHash tagging k v)).map nodeText

theorem proofTexts_subset {k v : Bytes} {proof : List Hash} (h : climbedTexts k v proof ⊆ texts) :
    proofTexts tagging 256 k v proof ⊆ textsWith texts := by
  rintro s (rfl | ⟨n, hn, rfl⟩)
  · exact .inr (h (List.mem_map_of_mem List.mem_cons_self))
  · exact .inr (h (List.mem_map_of_mem (List.mem_cons_of_mem _ hn)))

end Gleipnir.Sample
