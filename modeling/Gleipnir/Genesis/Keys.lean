import Gleipnir.Genesis.Spec
import Gleipnir.LightClient.Binding
import Gleipnir.Sample

/-!
# The genesis block

What `BuildGenesisBlock` makes of a specification that `Validate` accepts.

`Validate` asks of a key that it is hexadecimal, not that it has the length of a key. The block has arrays of fixed length:
what is too short is padded and what is too long is cut, and a first key of less than 16 bytes is sliced out of range. So the
block has the keys of the specification exactly if all of them have the right length (`keysFaithful_iff`).

The generator has a `computeBlockHash` of its own, which leaves out the digest of the entries and the quorum. The hash that it
stores is the one that a node recomputes only if SHA-256 gives the two different strings one digest (`verifyHash_iff`).
-/

namespace Gleipnir.Genesis

open Atomic Guard

variable {C : FloatConv} {X : Prims}

/-! ## Arrays of fixed length -/

variable {n i : Nat} {bs : Bytes} {v : ValidatorSpec} {info proposer : ValidatorInfo} {vs : List ValidatorSpec}
  {infos : List ValidatorInfo} {s : GenesisSpec} {block : Block}

/-- A copy is exact if the lengths agree. -/
theorem toList_copy_iff : (Arr.copy n bs).toList = bs ↔ bs.length = n := by
  constructor
  · intro h
    rw [← h, List.Vector.toList_length]
  · intro h
    change (bs ++ List.replicate n 0).take n = bs
    rw [← h, List.take_left]

/-! ## One validator -/

/-- What the contract hash of a validator becomes. -/
inductive ReadHash (v : ValidatorSpec) : Hash → Prop
  | absent (h : v.contractHash = "") : ReadHash v (Arr.zero 32)
  | given {ch : Bytes} (h : v.contractHash ≠ "") (hhex : hexDecode v.contractHash = some ch) : ReadHash v (Arr.copy 32 ch)

/-- What the record of a validator is copied from. -/
structure Copied (v : ValidatorSpec) (info : ValidatorInfo) : Prop where
  pubKey : ∃ bs, hexDecode v.uid0PubKey = some bs ∧ info.dilithium3PK = Arr.copy 1952 bs
  vrfPubKey : ∃ bs, hexDecode v.vrfPubKey = some bs ∧ info.vrfPK = Arr.copy 32 bs
  contractHash : ReadHash v info.contractHash
  validatorID : info.validatorID = Arr.copy 16 (info.dilithium3PK.toList.take 16)

theorem readContractHash_ok {hash : Hash} (h : readContractHash i v = .ok hash) : ReadHash v hash := by
  unfold readContractHash at h
  split at h
  · next habsent =>
    obtain rfl := Except.ok.inj h
    exact .absent habsent
  · next hgiven =>
    split at h
    · cases h
    · next ch hhex =>
      obtain rfl := Except.ok.inj h
      exact .given hgiven hhex

theorem validatorInfo_ok (h : validatorInfo i v = .ok info) : Copied v info := by
  unfold validatorInfo at h
  split at h
  · next pubKey hpub =>
    split at h
    · next vrfPubKey hvrf =>
      obtain ⟨hash, hhash, hinfo⟩ := bind_eq_ok.1 h
      obtain rfl := pure_eq_ok.1 hinfo
      exact ⟨⟨pubKey, hpub, rfl⟩, ⟨vrfPubKey, hvrf, rfl⟩, readContractHash_ok hhash, rfl⟩
    · cases h
  · cases h

/-- The contract hash is given and not hexadecimal. -/
def BadContractHash (v : ValidatorSpec) : Prop := v.contractHash ≠ "" ∧ hexDecode v.contractHash = none

/-- With readable keys only the contract hash can be refused. -/
theorem validatorInfo_error_iff (hv : Readable v) : (∃ err, validatorInfo i v = .error err) ↔ BadContractHash v := by
  obtain ⟨pubKey, hpub⟩ := Option.ne_none_iff_exists'.1 hv.pubKeyHex
  obtain ⟨vrfPubKey, hvrf⟩ := Option.ne_none_iff_exists'.1 hv.vrfPubKeyHex
  unfold validatorInfo readContractHash BadContractHash
  simp only [hpub, hvrf]
  by_cases habsent : v.contractHash = ""
  · simp [habsent, bind, Except.bind, pure, Except.pure]
  · cases hhex : hexDecode v.contractHash with
    | none => simp [habsent, bind, Except.bind]
    | some ch => simp [habsent, bind, Except.bind, pure, Except.pure]

/-- The keys and the contract hash, if one is given, are exactly what the texts decode to. -/
structure FaithfulKeys (v : ValidatorSpec) (info : ValidatorInfo) : Prop where
  pubKey : hexDecode v.uid0PubKey = some info.dilithium3PK.toList
  vrfPubKey : hexDecode v.vrfPubKey = some info.vrfPK.toList
  contractHash : v.contractHash ≠ "" → hexDecode v.contractHash = some info.contractHash.toList

/-- The text decodes to `n` bytes. -/
def DecodesTo (n : Nat) (s : String) : Prop := ∃ bs, hexDecode s = some bs ∧ bs.length = n

/-- The texts decode to as many bytes as the arrays have. -/
structure ExactKeys (v : ValidatorSpec) : Prop where
  pubKey : DecodesTo 1952 v.uid0PubKey
  vrfPubKey : DecodesTo 32 v.vrfPubKey
  contractHash : v.contractHash ≠ "" → DecodesTo 32 v.contractHash

theorem copied_iff {s : String} (h : hexDecode s = some bs) : hexDecode s = some (Arr.copy n bs).toList ↔ DecodesTo n s := by
  unfold DecodesTo
  rw [h, Option.some.injEq, eq_comm, toList_copy_iff]
  constructor
  · exact fun hlen => ⟨bs, rfl, hlen⟩
  · rintro ⟨bs', hbs, hlen⟩
    rwa [Option.some.inj hbs]

theorem Copied.faithful_iff (h : Copied v info) : FaithfulKeys v info ↔ ExactKeys v := by
  obtain ⟨pubKey, hpub, hpk⟩ := h.pubKey
  obtain ⟨vrfPubKey, hvrf, hvrfPK⟩ := h.vrfPubKey
  have hhash : (v.contractHash ≠ "" → hexDecode v.contractHash = some info.contractHash.toList) ↔
      (v.contractHash ≠ "" → DecodesTo 32 v.contractHash) := by
    refine imp_congr_right fun hgiven => ?_
    generalize hread : info.contractHash = hash
    have hcopied := h.contractHash
    rw [hread] at hcopied
    cases hcopied with
    | absent habsent => exact absurd habsent hgiven
    | given _ hhex => exact copied_iff hhex
  constructor
  · intro hf
    exact ⟨(copied_iff hpub).1 (hpk ▸ hf.pubKey), (copied_iff hvrf).1 (hvrfPK ▸ hf.vrfPubKey), hhash.1 hf.contractHash⟩
  · intro he
    exact ⟨hpk ▸ (copied_iff hpub).2 he.pubKey, hvrfPK ▸ (copied_iff hvrf).2 he.vrfPubKey, hhash.2 he.contractHash⟩

/-! ## All of them -/

theorem validatorInfos_ok : ∀ {i : Nat} {infos : List ValidatorInfo},
    validatorInfos i vs = .ok infos → List.Forall₂ Copied vs infos := by
  induction vs with
  | nil =>
    intro i infos h
    obtain rfl := Except.ok.inj h
    exact .nil
  | cons v vs ih =>
    intro i infos h
    obtain ⟨info, hinfo, hrest⟩ := bind_eq_ok.1 h
    obtain ⟨infos', hinfos, heq⟩ := bind_eq_ok.1 hrest
    obtain rfl := pure_eq_ok.1 heq
    exact .cons (validatorInfo_ok hinfo) (ih hinfos)

theorem validatorInfos_error_iff : ∀ {i : Nat}, (∀ v ∈ vs, Readable v) →
    ((∃ err, validatorInfos i vs = .error err) ↔ ∃ v ∈ vs, BadContractHash v) := by
  induction vs with
  | nil =>
    intro i _
    simp [validatorInfos]
  | cons v vs ih =>
    intro i hvs
    rw [List.exists_mem_cons_iff, ← validatorInfo_error_iff (i := i) (hvs v List.mem_cons_self),
      ← ih (i := i + 1) fun v hv => hvs v (List.mem_cons_of_mem _ hv), validatorInfos]
    cases validatorInfo i v with
    | error err => simp [bind, Except.bind]
    | ok info =>
      cases validatorInfos (i + 1) vs with
      | error err => simp [bind, Except.bind]
      | ok infos => simp [bind, Except.bind, pure, Except.pure]

theorem faithful_iff (h : List.Forall₂ Copied vs infos) : List.Forall₂ FaithfulKeys vs infos ↔ ∀ v ∈ vs, ExactKeys v := by
  induction h with
  | nil => simp
  | cons hcopied _ ih => rw [List.forall₂_cons, hcopied.faithful_iff, ih, List.forall_mem_cons]

/-- The first 16 bytes of the key of a validator. -/
def keyStart (v : ValidatorSpec) : Option Bytes := (hexDecode v.uid0PubKey).map (·.take 16)

/-- Keys in full give each validator the start of its key as its identity. -/
theorem validatorIDs_eq (h : List.Forall₂ Copied vs infos) (hf : List.Forall₂ FaithfulKeys vs infos) :
    infos.map (fun info => some info.validatorID.toList) = vs.map keyStart := by
  induction h with
  | nil => rfl
  | cons hcopied _ ih =>
    obtain ⟨hfirst, hrest⟩ := List.forall₂_cons.1 hf
    rw [List.map_cons, List.map_cons, ih hrest, keyStart, hfirst.pubKey, hcopied.validatorID, toList_copy_iff.2 (by simp)]
    rfl

/-! ## The block -/

/-- The legacy anchor is given, and does not decode to 32 bytes. -/
def BadLegacyAnchor (s : GenesisSpec) : Prop := s.legacyAnchor ≠ "" ∧ ¬ DecodesTo 32 s.legacyAnchor

theorem readLegacyAnchor_error_iff : (∃ err, s.readLegacyAnchor = .error err) ↔ BadLegacyAnchor s := by
  unfold GenesisSpec.readLegacyAnchor BadLegacyAnchor DecodesTo
  by_cases habsent : s.legacyAnchor = ""
  · simp [habsent]
  · rw [if_neg habsent]
    cases hexDecode s.legacyAnchor with
    | none => simp [habsent]
    | some bs => by_cases hlen : bs.length = 32 <;> simp [habsent, hlen]

theorem finish_error_iff (s : GenesisSpec) (proposer : ValidatorInfo) (infos : List ValidatorInfo) :
    (∃ err, s.finish X proposer infos = .error err) ↔ BadLegacyAnchor s := by
  rw [← readLegacyAnchor_error_iff, GenesisSpec.finish]
  cases s.readLegacyAnchor with
  | error err => simp [bind, Except.bind]
  | ok anchor => simp [bind, Except.bind, pure, Except.pure]

theorem finish_ok (h : s.finish X proposer infos = .ok block) : ∃ anchor, block =
      { s.draft proposer infos anchor with blockHash := computeBlockHash X (s.draft proposer infos anchor) } := by
  obtain ⟨anchor, -, hblock⟩ := bind_eq_ok.1 h
  exact ⟨anchor, (pure_eq_ok.1 hblock).symm⟩

/-- A block is the result of the last step, over the validators that were copied. -/
theorem assemble_ok (h : s.assemble X = .done (.ok block)) :
    ∃ proposer infos, List.Forall₂ Copied s.validators infos ∧ s.finish X proposer infos = .ok block := by
  unfold GenesisSpec.assemble at h
  split at h
  · cases h
  · cases h
  · next proposer rest hinfos => exact ⟨proposer, _, validatorInfos_ok hinfos, Exit.done.inj h⟩

theorem buildGenesisBlock_ok {cfg : ConsensusConfig} (h : buildGenesisBlock X s cfg = .done (.ok block)) :
    s.assemble X = .done (.ok block) := by
  unfold buildGenesisBlock at h
  split at h
  · cases h
  · cases h
  · exact h

/-! ## Keys -/

/-- What is expected of `BuildGenesisBlock`: an error, or a block with the keys of the specification, in which keys that differ
in their first 16 bytes belong to validators with different identities. -/
def KeysFaithful (s : GenesisSpec) : Exit (Except GenesisError Block) → Prop
  | .panic => False
  | .done (.error _) => True
  | .done (.ok block) => List.Forall₂ FaithfulKeys s.validators block.validators ∧
      ((s.validators.map keyStart).Nodup → (block.validators.map (·.validatorID)).Nodup)

/-- The first key can be sliced to 16 bytes. -/
def LongFirstKey (s : GenesisSpec) : Prop :=
  ∃ v pk, s.validators.head? = some v ∧ hexDecode v.uid0PubKey = some pk ∧ 16 ≤ pk.length

/-- A contract hash or the legacy anchor cannot be used. -/
def Refused (s : GenesisSpec) : Prop := (∃ v ∈ s.validators, BadContractHash v) ∨ BadLegacyAnchor s

/-- A block that is built has the keys exactly if the lengths are right. -/
theorem keysFaithful_block (hcopied : List.Forall₂ Copied s.validators infos) (h : s.finish X proposer infos = .ok block) :
    KeysFaithful s (.done (.ok block)) ↔ ∀ v ∈ s.validators, ExactKeys v := by
  obtain ⟨anchor, rfl⟩ := finish_ok h
  rw [← faithful_iff hcopied]
  refine ⟨And.left, fun hf => ⟨hf, fun hnodup => ?_⟩⟩
  have hids : (infos.map fun info => some info.validatorID.toList).Nodup := by
    rw [validatorIDs_eq hcopied hf]
    exact hnodup
  rw [show (fun info : ValidatorInfo => some info.validatorID.toList) =
    (fun id : RootID => some id.toList) ∘ (·.validatorID) from rfl, ← List.map_map] at hids
  exact hids.of_map

/-- After the first key was sliced, the lengths matter unless there is an error. -/
theorem keysFaithful_assemble (hs : Valid C s) :
    KeysFaithful s (s.assemble X) ↔ Refused s ∨ ∀ v ∈ s.validators, ExactKeys v := by
  have hcontract := validatorInfos_error_iff (i := 0) hs.readable
  unfold GenesisSpec.assemble Refused
  rw [← hcontract]
  cases hinfos : validatorInfos 0 s.validators with
  | error err => exact iff_of_true trivial (.inl (.inl ⟨err, rfl⟩))
  | ok infos =>
    have hcopied := validatorInfos_ok hinfos
    cases infos with
    | nil => exact absurd (List.forall₂_nil_right_iff.1 hcopied) hs.validators
    | cons proposer others =>
      rw [← finish_error_iff (X := X) s proposer (proposer :: others)]
      dsimp only
      cases hfinish : s.finish X proposer (proposer :: others) with
      | error err => exact iff_of_true trivial (.inl (.inr ⟨err, rfl⟩))
      | ok block =>
        rw [keysFaithful_block hcopied hfinish]
        simp

/-- **The keys of the genesis block.** For an accepted specification `BuildGenesisBlock` returns an error or a block with its
keys exactly if the first key has 16 bytes and, unless there is an error, every key and hash has its full length. -/
theorem keysFaithful_iff {s : GenesisSpec} (hvalid : s.validate C = .ok ()) (cfg : ConsensusConfig) :
    KeysFaithful s (buildGenesisBlock X s cfg) ↔ LongFirstKey s ∧ (Refused s ∨ ∀ v ∈ s.validators, ExactKeys v) := by
  have hs := validate_ok_iff.1 hvalid
  obtain ⟨first, rest, hvs⟩ := List.exists_cons_of_ne_nil hs.validators
  have hreadable : Readable first := hs.readable first (by rw [hvs]; exact List.mem_cons_self)
  obtain ⟨pk, hpk⟩ := Option.ne_none_iff_exists'.1 hreadable.pubKeyHex
  have hlong : LongFirstKey s ↔ ¬ pk.length < 16 := by simp [LongFirstKey, hvs, hpk]
  unfold buildGenesisBlock firstProposer
  simp only [hvs, hpk]
  by_cases hshort : pk.length < 16
  · rw [if_pos hshort, hlong]
    exact iff_of_false (fun h => h) fun h => h.1 hshort
  · rw [if_neg hshort, and_iff_right (hlong.2 hshort), ← hvs]
    exact keysFaithful_assemble hs

namespace Sample

open Gleipnir.Sample

/-- The conversions where they are in range. -/
def conv : FloatConv := ⟨fun v => UInt64.ofNat v.floor.toNat, fun v => Int64.ofInt v.floor⟩

/-- A rule that asks for `q` validators. -/
def minRule (q : ℚ) : MandateRuleSpec := ⟨consensusConfigClass, AList.singleton "MinValidators" (.number q)⟩

/-- The specification of a network of one validator, without a contract hash. -/
def network (pubKey vrfPubKey : String) (rules : List MandateRuleSpec) : GenesisSpec :=
  ⟨"net", 1, [⟨pubKey, vrfPubKey, ""⟩], ⟨"3cp:mandate:v1", rules⟩, ""⟩

/-- A network of one validator, with keys in full. -/
def fullKeys : GenesisSpec :=
  network (hexEncode (List.replicate 1952 1)) (hexEncode (List.replicate 32 2)) [minRule 1]

theorem hexEncode_ne_empty {bs : Bytes} (h : bs ≠ []) : hexEncode bs ≠ "" := by
  intro heq
  have hdecode := hexDecode_hexEncode bs
  rw [heq] at hdecode
  exact h (Option.some.inj hdecode).symm

theorem hexDecode_ne_none (bs : Bytes) : hexDecode (hexEncode bs) ≠ none := by
  rw [hexDecode_hexEncode]
  exact Option.some_ne_none bs

theorem valid_fullKeys : fullKeys.validate conv = .ok () := by
  refine validate_ok_iff.2 ⟨by decide, by decide, by decide, by decide, ?_, rfl, by decide⟩
  intro v hv
  obtain rfl := List.mem_singleton.1 hv
  exact ⟨hexEncode_ne_empty (List.cons_ne_nil _ _), hexDecode_ne_none _, hexEncode_ne_empty (List.cons_ne_nil _ _),
    hexDecode_ne_none _⟩

/-- Keys of full length are in the block as they are. -/
theorem fullKeys_faithful : fullKeys.validate conv = .ok () ∧
    KeysFaithful fullKeys (buildGenesisBlock prims fullKeys .default) := by
  refine ⟨valid_fullKeys, ?_⟩
  rw [keysFaithful_iff valid_fullKeys]
  refine ⟨?_, .inr ?_⟩
  · exact ⟨_, List.replicate 1952 1, rfl, hexDecode_hexEncode _, by rw [List.length_replicate]; decide⟩
  · intro v hv
    obtain rfl := List.mem_singleton.1 hv
    refine ⟨⟨List.replicate 1952 1, hexDecode_hexEncode _, ?_⟩, ⟨List.replicate 32 2, hexDecode_hexEncode _, ?_⟩,
      fun h => absurd rfl h⟩
    · exact List.length_replicate
    · exact List.length_replicate

/-- A key of one byte is accepted, and slicing it panics. -/
theorem shortKey_panics : (network "ab" "cd" [minRule 1]).validate conv = .ok () ∧
    buildGenesisBlock prims (network "ab" "cd" [minRule 1]) .default = .panic ∧
    ¬ KeysFaithful (network "ab" "cd" [minRule 1]) (buildGenesisBlock prims (network "ab" "cd" [minRule 1]) .default) := by
  have hpanic : buildGenesisBlock prims (network "ab" "cd" [minRule 1]) .default = .panic := by decide
  refine ⟨by decide, hpanic, ?_⟩
  rw [hpanic]
  exact fun h => h

end Sample

/-! ## The hash -/

/-- The digest of the entries and the quorum make the hashed string of a node longer. -/
theorem genesisInput_ne (s : GenesisSpec) (proposer : ValidatorInfo) (infos : List ValidatorInfo) (anchor : Bytes) :
    genesisInput (s.draft proposer infos anchor) ≠ LightClient.hashInput X (s.draft proposer infos anchor) := by
  intro h
  have hlen := congrArg List.length h
  simp only [genesisInput, LightClient.hashInput, GenesisSpec.draft, List.length_append, List.length_replicate, length_le64,
    List.Vector.toList_length, List.flatMap_nil, List.length_nil] at hlen
  omega

/-- **The hash of the genesis block.** What the generator hashes is never what `ComputeBlockHash` hashes, so the block passes
`VerifyHash` exactly if SHA-256 collides on the two strings. -/
theorem verifyHash_iff {s : GenesisSpec} {cfg : ConsensusConfig} {block : Block}
    (h : buildGenesisBlock X s cfg = .done (.ok block)) :
    genesisInput block ≠ LightClient.hashInput X block ∧
      (block.verifyHash X = true ↔ X.sha256 (genesisInput block) = X.sha256 (LightClient.hashInput X block)) := by
  obtain ⟨proposer, infos, -, hfinish⟩ := assemble_ok (buildGenesisBlock_ok h)
  obtain ⟨anchor, rfl⟩ := finish_ok hfinish
  refine ⟨genesisInput_ne s proposer infos anchor, ?_⟩
  rw [Block.verifyHash, beq_iff_eq]
  exact List.Vector.toList_injective.eq_iff

namespace Sample

open Gleipnir.Sample

/-- A network whose validator has keys of 16 bytes and of one. -/
def shortKeys : GenesisSpec := network "000102030405060708090a0b0c0d0e0f" "cd" [minRule 1]

/-- The block stores a hash that it does not have. -/
def storesOtherHash : Exit (Except GenesisError Block) → Bool
  | .done (.ok block) => !block.verifyHash prims
  | _ => false

theorem storesOtherHash_eq {x : Exit (Except GenesisError Block)} (h : storesOtherHash x = true) :
    ∃ block, x = .done (.ok block) ∧ block.verifyHash prims = false := by
  unfold storesOtherHash at h
  split at h
  · next block => exact ⟨block, rfl, by simpa using h⟩
  · cases h

def built : Computed (buildGenesisBlock prims shortKeys .default) fun x => storesOtherHash x = true :=
  computed _ (by decide +kernel)

/-- The genesis block of this network is accepted by no node. -/
theorem shortKeys_unverified : shortKeys.validate conv = .ok () ∧
    ∃ block, buildGenesisBlock prims shortKeys .default = .done (.ok block) ∧ block.verifyHash prims = false := by
  obtain ⟨x, rfl, hx⟩ := built
  exact ⟨by decide, storesOtherHash_eq hx⟩

/-- The two strings for this block, and their digests. -/
theorem shortKeys_inputs : ∃ block, buildGenesisBlock prims shortKeys .default = .done (.ok block) ∧
    genesisInput block ≠ LightClient.hashInput prims block ∧ (block.verifyHash prims = true ↔
      prims.sha256 (genesisInput block) = prims.sha256 (LightClient.hashInput prims block)) := by
  obtain ⟨x, hx, hstores⟩ := built
  rw [hx] at hstores
  obtain ⟨block, hblock, -⟩ := storesOtherHash_eq hstores
  exact ⟨block, hblock, verifyHash_iff hblock⟩

end Sample

end Gleipnir.Genesis
