import Gleipnir.Chain

/-!
# Signer bitmaps and degraded mode

The bitmap of a certificate names its signers by their position among the peers: position `i` is bit `i % 8` of byte
`i / 8`. `consensus/degraded.go` handles networks below the minimal number of validators, where one valid signature
finalises a block and every block says so in its metadata.
-/

namespace Gleipnir

variable (X : Prims)

/-! ## Bitmaps -/

/-- `bitmap[i/8] & (1 << (i%8)) != 0`, false past the end. -/
def bitSet (bitmap : Bytes) (i : Nat) : Bool :=
  match bitmap[i / 8]? with
  | none => false
  | some b => b.toNat.testBit (i % 8)

/-- `bitmap[i/8] |= 1 << (i%8)`. -/
def setBit (bitmap : Bytes) (i : Nat) : Bytes := bitmap.modify (i / 8) fun b => b ||| (1 <<< UInt8.ofNat (i % 8))

/-- `make([]byte, (n+7)/8)`. -/
def newBitmap (n : Nat) : Bytes := List.replicate ((n + 7) / 8) 0

/-- `quorumRequired`: two thirds of `n`, rounded up. -/
def quorumRequired (n : Nat) : Nat := (2 * n + 2) / 3

/-! ## The handler -/

def degradedLabel : String := "3cp:degraded-block"

/-- The bytes of `"true"`. -/
def trueBytes : Bytes := "true".toUTF8.toList

/-- Whether the metadata of a block carries the degraded marker. -/
def Block.labelledDegraded (b : Block) : Bool := b.metadata.lookup degradedLabel == some trueBytes

/-- `consensus.DegradedMode`. -/
structure DegradedMode where
  minValidators : UInt64
  graceCycles : UInt64
  consecutiveNormal : UInt64
  inDegraded : Bool
  deriving DecidableEq

/-- `NewDegradedMode`. -/
def DegradedMode.new (minValidators graceCycles : UInt64) : DegradedMode := ⟨minValidators, graceCycles, 0, false⟩

/-- `CheckDegradedTransition`: the handler after a cycle, whether it changed mode, and the mode reported. -/
def DegradedMode.checkDegradedTransition (d : DegradedMode) (currentValidators : Nat) (quorumReached : Bool) :
    DegradedMode × Bool × Bool :=
  if !d.inDegraded then
    if UInt64.ofNat currentValidators < d.minValidators then
      ({ d with inDegraded := true, consecutiveNormal := 0 }, true, true)
    else (d, false, false)
  else if d.minValidators ≤ UInt64.ofNat currentValidators ∧ quorumReached then
    let consecutiveNormal := d.consecutiveNormal + 1
    if d.graceCycles ≤ consecutiveNormal then ({ d with inDegraded := false, consecutiveNormal := 0 }, true, false)
    else ({ d with consecutiveNormal }, false, true)
  else ({ d with consecutiveNormal := 0 }, false, true)

/-- The search of `ApplyDegradedBlock` for a signature that verifies under its signer's registered key. The signatures are
stored in the order of the set bits, so the position among them advances with each bit. -/
def firstValidSig (block : Block) : List (Peer × Nat) → Nat → Option (Bytes × Nat)
  | [], _ => none
  | (p, peerIdx) :: ps, sigIdx =>
    if block.prepareSigsBitmap.length ≤ peerIdx / 8 then none
    else if !bitSet block.prepareSigsBitmap peerIdx then firstValidSig block ps sigIdx
    else match block.prepareSigs[sigIdx]? with
      | none => none
      | some sig =>
        if sig.length ≠ 0 ∧ verifyDilithium X p.uid.publicKey block.blockHash sig then some (sig, peerIdx)
        else firstValidSig block ps (sigIdx + 1)

/-- `ApplyDegradedBlock`; `none` is its error, that no signature is valid. -/
def DegradedMode.applyDegradedBlock (d : DegradedMode) (block : Block) (peers : List Peer) : Option Block :=
  if !d.inDegraded then some block
  else match firstValidSig X block peers.zipIdx 0 with
    | none => none
    | some (validSig, validPeerIdx) => some { block with
        prepareSigs := [validSig]
        prepareSigsBitmap := setBit (newBitmap peers.length) validPeerIdx
        metadata := block.metadata.insert degradedLabel trueBytes }

/-- Degraded mode touches the certificate and the metadata of a block only. -/
theorem applyDegradedBlock_eq {d : DegradedMode} {block block' : Block} {peers : List Peer}
    (h : d.applyDegradedBlock X block peers = some block') :
    ∃ sigs bitmap metadata, block' =
      { block with prepareSigs := sigs, prepareSigsBitmap := bitmap, metadata := metadata } := by
  unfold DegradedMode.applyDegradedBlock at h
  split at h
  · cases h
    exact ⟨_, _, _, rfl⟩
  · split at h
    · cases h
    · cases h
      exact ⟨_, _, _, rfl⟩

/-- The block with one signature, for the peer at position `i` of `n`. -/
def Block.trimmed (block : Block) (n i : Nat) (sig : Bytes) : Block :=
  { block with
    prepareSigs := [sig]
    prepareSigsBitmap := setBit (newBitmap n) i
    metadata := block.metadata.insert degradedLabel trueBytes }

theorem applyDegradedBlock_iff {X : Prims} {d : DegradedMode} (hd : d.inDegraded = true) {block block' : Block} {peers : List Peer} :
    d.applyDegradedBlock X block peers = some block' ↔
      ∃ sig i, firstValidSig X block peers.zipIdx 0 = some (sig, i) ∧ block.trimmed peers.length i sig = block' := by
  unfold DegradedMode.applyDegradedBlock
  rw [if_neg (by simp [hd])]
  cases firstValidSig X block peers.zipIdx 0 with
  | none => simp
  | some found => simp [Block.trimmed, Prod.ext_iff]

end Gleipnir
