import Gleipnir.Lib.HashChain
import Gleipnir.LightClient.Intersection

/-!
# The chain behind a block

A light client that follows a chain takes each block it accepts as its next anchor. The hash of the last block then stands
for the whole chain (`chain_binding`): the fields are hashed one after the other with nothing in between, but the predecessor
of a linked block is a digest, so its place among the hashed bytes is known.
-/

namespace Gleipnir.LightClient

open HashChain

variable (X : Prims)

/-! ## What is hashed -/

/-- The bytes that `ComputeBlockHash` hashes. -/
def hashInput (b : Block) : Bytes :=
  le64 b.index ++ b.prevHash ++ b.stateRoot ++ b.proposer.toList ++
    (X.blake3 (X.cborEntries b.anchored)).toList ++ le64 b.timestamp.toUInt64 ++ X.cborQuorum b.quorum

theorem computeBlockHash_eq (b : Block) : computeBlockHash X b = (X.sha256 (hashInput X b)).toList := rfl

variable {b b' : Block} {anchor : TrustAnchor}

/-- With digests for predecessors, the hashed bytes determine the index and the predecessor. -/
theorem hashInput_inj (hlen : b.prevHash.length = 32) (hlen' : b'.prevHash.length = 32) (h : hashInput X b = hashInput X b') :
    b.index = b'.index ∧ b.prevHash = b'.prevHash := by
  simp only [hashInput, List.append_assoc] at h
  obtain ⟨hindex, hrest⟩ := List.append_inj h (by rw [length_le64, length_le64])
  exact ⟨le64_inj hindex, (List.append_inj hrest (hlen.trans hlen'.symm)).1⟩

/-! ## Chains that a client follows -/

/-- The blocks are accepted one after the other, each as the anchor of the next; the rotations the client knows may differ from
block to block. -/
def AcceptsAll (validators : List ValidatorInfo) : UInt64 → Option Bytes → List Block → Prop
  | _, _, [] => True
  | index, hash, b :: bs =>
    (∃ rotations, Accepts X ⟨index, hash, validators, rotations⟩ b) ∧ AcceptsAll validators b.index (some b.blockHash) bs

/-- No two different strings among those hashed for the blocks have the same SHA-256 digest. -/
def NoCollision (bs : List Block) : Prop :=
  ∀ b ∈ bs, ∀ b' ∈ bs, X.sha256 (hashInput X b) = X.sha256 (hashInput X b') → hashInput X b = hashInput X b'

variable {X} {validators : List ValidatorInfo}

theorem hash_of_accepts (h : Accepts X anchor b) : b.blockHash = (X.sha256 (hashInput X b)).toList := by
  rw [← computeBlockHash_eq, ((accepts_iff X).1 h).hash]

theorem length_of_accepts (h : Accepts X anchor b) : b.blockHash.length = 32 := by
  rw [hash_of_accepts h]
  exact List.Vector.toList_length _

theorem prevHash_of_accepts {index : UInt64} {hash : Bytes} {rotations : List (Option KeyRotationEntry)}
    (h : Accepts X ⟨index, some hash, validators, rotations⟩ b) : b.prevHash = hash := by
  have hlinked := ((accepts_iff X).1 h).linked
  simp only [checkLinkage] at hlinked
  split at hlinked
  · cases hlinked
  · split at hlinked
    · cases hlinked
    · next hprev => exact (not_not.1 hprev).symm

/-- The blocks after an anchor with a hash: they are linked, hashed, and name digests. -/
theorem linked_of_acceptsAll (bs : List Block) : ∀ {index : UInt64} {hash : Bytes}, hash.length = 32 →
    AcceptsAll X validators index (some hash) bs →
    Linked Block.blockHash Block.prevHash hash bs ∧
      ∀ b ∈ bs, b.prevHash.length = 32 ∧ b.blockHash = (X.sha256 (hashInput X b)).toList := by
  induction bs with
  | nil => intro index hash _ _; exact ⟨trivial, nofun⟩
  | cons b bs ih =>
    rintro index hash hlen ⟨⟨rotations, haccept⟩, hrest⟩
    have hhash := hash_of_accepts haccept
    have hprev := prevHash_of_accepts haccept
    obtain ⟨hlinked, hall⟩ := ih (length_of_accepts haccept) hrest
    refine ⟨⟨hprev, hlinked⟩, fun b' hb' => ?_⟩
    rcases List.mem_cons.1 hb' with rfl | hb'
    · exact ⟨hprev ▸ hlen, hhash⟩
    · exact hall b' hb'

/-- Blocks that were accepted with equal hashes hash the same bytes. -/
theorem hashInput_eq_of_blockHash {bs : List Block} (hno : NoCollision X bs) (hb : b ∈ bs) (hb' : b' ∈ bs)
    (hhash : b.blockHash = (X.sha256 (hashInput X b)).toList) (hhash' : b'.blockHash = (X.sha256 (hashInput X b')).toList)
    (heq : b.blockHash = b'.blockHash) : hashInput X b = hashInput X b' := by
  apply hno b hb b' hb'
  apply List.Vector.toList_injective
  rw [← hhash, ← hhash', heq]

/-- **The last hash binds the chain**: two chains of one length that clients with the same trusted validators have followed
from the start, and that end in blocks with the same hash, have the same hashes everywhere, and the same indices and
predecessors from the second block on. -/
theorem chain_binding {start start' : UInt64} {bs bs' : List Block} (h : AcceptsAll X validators start none bs)
    (h' : AcceptsAll X validators start' none bs') (hlen : bs.length = bs'.length) (hno : NoCollision X (bs ++ bs'))
    (hlast : bs.getLast?.map Block.blockHash = bs'.getLast?.map Block.blockHash) :
    bs.map Block.blockHash = bs'.map Block.blockHash ∧
      bs.tail.map (fun b => (b.index, b.prevHash)) = bs'.tail.map fun b => (b.index, b.prevHash) := by
  cases bs with
  | nil =>
    obtain rfl := List.length_eq_zero_iff.1 hlen.symm
    exact ⟨rfl, rfl⟩
  | cons b bs =>
    cases bs' with
    | nil => cases hlen
    | cons b' bs' =>
      obtain ⟨⟨_, hfirst⟩, hrest⟩ := h
      obtain ⟨⟨_, hfirst'⟩, hrest'⟩ := h'
      obtain ⟨hlinked, hall⟩ := linked_of_acceptsAll bs (length_of_accepts hfirst) hrest
      obtain ⟨hlinked', hall'⟩ := linked_of_acceptsAll bs' (length_of_accepts hfirst') hrest'
      have hbinds : ∀ c ∈ bs, ∀ c' ∈ bs', c.blockHash = c'.blockHash → (c.index, c.prevHash) = (c'.index, c'.prevHash) := by
        intro c hc c' hc' heq
        have hinput := hashInput_eq_of_blockHash hno (by simp [hc]) (by simp [hc']) (hall c hc).2 (hall' c' hc').2 heq
        obtain ⟨hindex, hprev⟩ := hashInput_inj X (hall c hc).1 (hall' c' hc').1 hinput
        rw [hindex, hprev]
      have hlen' : bs.length = bs'.length := Nat.succ.inj hlen
      -- the first hash: it is the last one as well, or the second block names it
      have hhashes : bs.map Block.blockHash = bs'.map Block.blockHash ∧ b.blockHash = b'.blockHash := by
        by_cases hnil : bs = []
        · subst hnil
          obtain rfl := List.length_eq_zero_iff.1 hlen'.symm
          exact ⟨rfl, by simpa using hlast⟩
        · have hnil' : bs' ≠ [] := fun h => hnil (List.length_eq_zero_iff.1 (by rw [hlen', h]; rfl))
          rw [List.getLast?_cons_of_ne_nil hnil, List.getLast?_cons_of_ne_nil hnil'] at hlast
          obtain ⟨hhashes, hnames⟩ := hashes_eq bs (fun c hc c' hc' heq => (Prod.ext_iff.1 (hbinds c hc c' hc' heq)).2)
            hlinked hlinked' hlen' hlast
          exact ⟨hhashes, hnames hnil⟩
      exact ⟨by rw [List.map_cons, List.map_cons, hhashes.1, hhashes.2], map_eq_of_hashes bs hbinds hhashes.1⟩

end Gleipnir.LightClient

namespace Gleipnir.Sample

open LightClient

/-- The block after `prior`, with the given signatures. -/
def nextBlock (prior : Block) (signers : List UInt8) (bitmap : Bytes) : Block :=
  let b := { signedBlock [] [] [] with index := prior.index + 1, prevHash := prior.blockHash }
  let blockHash := computeBlockHash prims b
  { b with
    blockHash
    prepareSigsBitmap := bitmap
    prepareSigs := signers.map fun k => stamp k blockHash
    commitSig := stamp 1 blockHash }

/-- Two blocks, the first one signed by the given validators. -/
def followed (signers : List UInt8) (bitmap : Bytes) : List Block :=
  [signedBlock [] signers bitmap, nextBlock (signedBlock [] signers bitmap) [1, 2, 3] [7]]

theorem followed_accepted : AcceptsAll prims anchor.validators 0 none (followed [1, 2, 3] [7]) ∧
    AcceptsAll prims anchor.validators 0 none (followed [2, 3, 4] [14]) := by
  refine ⟨⟨⟨[], ?_⟩, ⟨[], ?_⟩, trivial⟩, ⟨⟨[], ?_⟩, ⟨[], ?_⟩, trivial⟩⟩
  · unfold Accepts
    decide +kernel
  · unfold Accepts
    decide +kernel
  · unfold Accepts
    decide +kernel
  · unfold Accepts
    decide +kernel

/-- Chains whose first blocks carry different certificates, and whose last hashes agree. -/
theorem followed_bound : followed [1, 2, 3] [7] ≠ followed [2, 3, 4] [14] ∧
    (followed [1, 2, 3] [7]).map Block.blockHash = (followed [2, 3, 4] [14]).map Block.blockHash := by
  have hno : NoCollision prims (followed [1, 2, 3] [7] ++ followed [2, 3, 4] [14]) := by
    unfold NoCollision
    decide +kernel
  have hne : followed [1, 2, 3] [7] ≠ followed [2, 3, 4] [14] := by
    intro h
    have hbitmap := congrArg (List.map Block.prepareSigsBitmap) h
    revert hbitmap
    decide +kernel
  exact ⟨hne, (chain_binding followed_accepted.1 followed_accepted.2 rfl hno (by decide +kernel)).1⟩

end Gleipnir.Sample
