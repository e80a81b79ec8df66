import Gleipnir.Lib.Path
import Gleipnir.Sample

/-!
# The network bus

`transport/p2p/gossip.go`: the `GossipChannel` over streams. A node keeps its own slots, broadcasts what it is asked to
publish, and takes in what its peers send, one framed message a stream. Candidates and final blocks travel on one protocol,
and the handler of that protocol writes the candidate slot whatever it holds. `candidates_fixed_iff`: the candidates of a bus
stay what they are exactly if every proposal message finds its slot empty or holding the block it carries.
-/

namespace Gleipnir

open Atomic

/-! ## Frames -/

/-- `maxStreamMessage`. -/
def maxStreamMessage : Nat := 4 * 1024 * 1024

/-- `binary.BigEndian.PutUint32`. -/
def be32 (n : Nat) : Bytes := [n / 2 ^ 24, n / 2 ^ 16, n / 2 ^ 8, n].map UInt8.ofNat

/-- `binary.BigEndian.Uint32`, of the bytes it is given. -/
def bigEndian (bs : Bytes) : Nat := bs.foldl (fun n b => n * 256 + b.toNat) 0

/-- What `sendStream` writes to a stream; a message over the limit is not sent. -/
def framed (data : Bytes) : Option Bytes :=
  if maxStreamMessage < data.length then none else some (be32 data.length ++ data)

/-- `readFramed` on what arrives on a stream before it ends. -/
def readFramed (stream : Bytes) : Option Bytes :=
  if stream.length < 4 then none
  else
    let length := bigEndian (stream.take 4)
    if length = 0 ∨ maxStreamMessage < length then none
    else if (stream.drop 4).length < length then none
    else some ((stream.drop 4).take length)

theorem bigEndian_be32 {n : Nat} (h : n < 2 ^ 32) : bigEndian (be32 n) = n := by
  simp only [bigEndian, be32, List.map_cons, List.map_nil, List.foldl_cons, List.foldl_nil, UInt8.toNat_ofNat']
  omega

/-- **A frame is read back.** -/
theorem readFramed_framed {data stream : Bytes} (hdata : data ≠ []) (h : framed data = some stream) :
    readFramed stream = some data := by
  unfold framed at h
  split at h
  · cases h
  · next hlimit =>
    obtain rfl := Option.some.inj h
    have hpos : 0 < data.length := List.length_pos_iff.2 hdata
    have hlimit' : data.length ≤ 4194304 := by simpa [maxStreamMessage] using hlimit
    have hhead : (be32 data.length ++ data).take 4 = be32 data.length := by simp [be32]
    have hrest : (be32 data.length ++ data).drop 4 = data := by simp [be32]
    have hlength : bigEndian (be32 data.length) = data.length := bigEndian_be32 (by omega)
    unfold readFramed
    rw [hhead, hrest, hlength]
    have hlong : ¬ (be32 data.length ++ data).length < 4 := by simp [be32]
    have hbounds : ¬ (data.length = 0 ∨ maxStreamMessage < data.length) := by
      simp only [maxStreamMessage]
      omega
    rw [if_neg hlong]
    simp only [if_neg hbounds, lt_irrefl, if_false, List.take_length]

/-! ## The bus -/

/-- The protocols of the bus. -/
inductive Protocol where
  | entries
  | proposals
  | sigs
  | vrfProofs
  deriving DecidableEq

/-- A message on its way to every connected peer. -/
structure Message where
  protocol : Protocol
  data : Bytes
  deriving DecidableEq

/-- `encoding/json` on the four kinds of messages. -/
structure Codec where
  marshalEntry : ProvenanceEntry → Bytes
  unmarshalEntry : Bytes → Option ProvenanceEntry
  marshalBlock : Block → Bytes
  unmarshalBlock : Bytes → Option Block
  marshalSig : BlockSig → Bytes
  unmarshalSig : Bytes → Option BlockSig
  marshalVRFProof : VRFProofMsg → Bytes
  unmarshalVRFProof : Bytes → Option VRFProofMsg

/-- `p2p.GossipBus`, without its connections. -/
structure GossipBus where
  pending : List ProvenanceEntry
  proposals : UInt64 → Option Block
  finals : UInt64 → Option Block
  sigs : UInt64 → List BlockSig
  vrfProofs : UInt64 → List VRFProofMsg

namespace GossipBus

variable (C : Codec) (b : GossipBus)

/-- `NewGossipBus`. -/
def new : GossipBus := ⟨[], fun _ => none, fun _ => none, fun _ => [], fun _ => []⟩

/-- `Publish`. -/
def publish (entry : ProvenanceEntry) : GossipBus × List Message :=
  ({ b with pending := b.pending ++ [entry] }, [⟨.entries, C.marshalEntry entry⟩])

/-- `RemoveEntries`. -/
def removeEntries (remove : List Hash) : GossipBus := { b with pending := b.pending.filter fun e => e.hash ∉ remove }

/-- `Propose`: the first candidate of an index stays, and only that one is sent. -/
def propose (block : Block) : GossipBus × List Message :=
  match b.proposals block.index with
  | some _ => (b, [])
  | none =>
    ({ b with proposals := Function.update b.proposals block.index (some block) }, [⟨.proposals, C.marshalBlock block⟩])

/-- `GetProposed`. -/
def getProposed (cycle : UInt64) : Option Block := b.proposals cycle

/-- `PublishFinal`: the block goes out on the protocol of the candidates. -/
def publishFinal (block : Block) : GossipBus × List Message :=
  ({ b with finals := Function.update b.finals block.index (some block) }, [⟨.proposals, C.marshalBlock block⟩])

/-- `PublishSig`: every signature is kept. -/
def publishSig (sig : BlockSig) : GossipBus × List Message :=
  ({ b with sigs := Function.update b.sigs sig.cycle (b.sigs sig.cycle ++ [sig]) }, [⟨.sigs, C.marshalSig sig⟩])

/-- Keep a VRF proof, the first of each signer and cycle. -/
def keepVRFProof (proof : VRFProofMsg) : GossipBus :=
  { b with vrfProofs := Function.update b.vrfProofs proof.cycle (b.vrfProofs proof.cycle ++ [proof]) }

/-- `PublishVRFProof`. -/
def publishVRFProof (proof : VRFProofMsg) : GossipBus × List Message :=
  if ∃ p ∈ b.vrfProofs proof.cycle, p.signerID = proof.signerID then (b, [])
  else (b.keepVRFProof proof, [⟨.vrfProofs, C.marshalVRFProof proof⟩])

/-- One operation of the channel: the response, the bus afterwards, and what is broadcast. -/
def answer (now : Int) (wait : Patience) : (o : Op) → o.Res × GossipBus × List Message
  | .publish entry => ((), b.publish C entry)
  | .snapshot => (b.pending, b, [])
  | .removeEntries remove => ((), b.removeEntries remove, [])
  | .propose block _ => ((), b.propose C block)
  | .getProposed cycle => (b.getProposed cycle, b, [])
  | .publishFinal block _ => ((), b.publishFinal C block)
  | .getFinal cycle => (b.finals cycle, b, [])
  | .publishSig sig => ((), b.publishSig C sig)
  | .getSigs cycle => (b.sigs cycle, b, [])
  | .publishVRFProof proof => ((), b.publishVRFProof C proof)
  | .getVRFProofs cycle => (b.vrfProofs cycle, b, [])
  | .now => (now, b, [])
  | .patience => (wait, b, [])

/-- `handleEntriesStream`; like the others, it drops a message that cannot be read or decoded. -/
def handleEntriesStream (stream : Bytes) : GossipBus :=
  match (readFramed stream).bind C.unmarshalEntry with
  | none => b
  | some entry => { b with pending := b.pending ++ [entry] }

/-- `handleProposalsStream`: the slot is written, whatever it holds. -/
def handleProposalsStream (stream : Bytes) : GossipBus :=
  match (readFramed stream).bind C.unmarshalBlock with
  | none => b
  | some block => { b with proposals := Function.update b.proposals block.index (some block) }

/-- `handleSigsStream`. -/
def handleSigsStream (stream : Bytes) : GossipBus :=
  match (readFramed stream).bind C.unmarshalSig with
  | none => b
  | some sig => { b with sigs := Function.update b.sigs sig.cycle (b.sigs sig.cycle ++ [sig]) }

/-- `handleVRFProofsStream`. -/
def handleVRFProofsStream (stream : Bytes) : GossipBus :=
  match (readFramed stream).bind C.unmarshalVRFProof with
  | none => b
  | some proof =>
    if ∃ p ∈ b.vrfProofs proof.cycle, p.signerID = proof.signerID then b else b.keepVRFProof proof

/-- The handler that `NewGossipBus` sets for a protocol. -/
def receive (stream : Bytes) : Protocol → GossipBus
  | .entries => b.handleEntriesStream C stream
  | .proposals => b.handleProposalsStream C stream
  | .sigs => b.handleSigsStream C stream
  | .vrfProofs => b.handleVRFProofsStream C stream

end GossipBus

/-! ## Runs of a bus -/

/-- What happens to a bus: its engine calls it, at a time and with a wait, or a stream arrives from a peer. -/
inductive BusInput where
  | call (now : Int) (wait : Patience) (o : Op)
  | receive (protocol : Protocol) (stream : Bytes)

namespace GossipBus

variable (C : Codec) (b : GossipBus)

def step (b : GossipBus) : BusInput → GossipBus
  | .call now wait o => (b.answer C now wait o).2.1
  | .receive protocol stream => b.receive C stream protocol

/-- The bus after a sequence of inputs. -/
def run (is : List BusInput) : GossipBus := is.foldl (step C) b

/-- What `GetProposed` returned of `b` it returns of `b'`. -/
def KeepsCandidates (b b' : GossipBus) : Prop :=
  ∀ cycle block, b.getProposed cycle = some block → b'.getProposed cycle = some block

/-- Once `GetProposed` returns a block, it returns this block from then on. -/
def CandidatesFixed (is : List BusInput) : Prop :=
  ∀ u v w, is = u ++ (v ++ w) → KeepsCandidates (b.run C u) (b.run C (u ++ v))

/-- A proposal that arrives finds its slot empty, or the block it carries in it. -/
def Harmless (b : GossipBus) (i : BusInput) : Prop :=
  ∀ stream block held, i = .receive .proposals stream → (readFramed stream).bind C.unmarshalBlock = some block →
    b.getProposed block.index = some held → held = block

variable {C b}

theorem KeepsCandidates.refl (b : GossipBus) : KeepsCandidates b b := fun _ _ h => h

theorem KeepsCandidates.trans {b₁ b₂ b₃ : GossipBus} (h : KeepsCandidates b₁ b₂) (h' : KeepsCandidates b₂ b₃) :
    KeepsCandidates b₁ b₃ := fun cycle block hblock => h' cycle block (h cycle block hblock)

theorem keepsCandidates_of_eq {b b' : GossipBus} (h : b'.proposals = b.proposals) : KeepsCandidates b b' := by
  intro cycle block hblock
  rwa [getProposed, h]

theorem propose_keeps (block : Block) : KeepsCandidates b (b.propose C block).1 := by
  unfold propose
  cases hslot : b.proposals block.index with
  | some held => exact .refl b
  | none =>
    intro cycle held hheld
    have hne : cycle ≠ block.index := by
      rintro rfl
      rw [getProposed, hslot] at hheld
      cases hheld
    simpa only [getProposed, Function.update_of_ne hne] using hheld

/-- **The calls of the engine** keep the candidates. -/
theorem answer_keeps (now : Int) (wait : Patience) (o : Op) : KeepsCandidates b (b.answer C now wait o).2.1 := by
  cases o with
  | propose block id => exact propose_keeps block
  | publishVRFProof proof =>
    simp only [answer, publishVRFProof]
    split
    · exact .refl b
    · exact keepsCandidates_of_eq rfl
  | _ => exact keepsCandidates_of_eq rfl

variable {stream : Bytes} {block : Block} {m : MemoryBus}

/-- A proposal that arrives is in its slot afterwards, and the other slots are as before. -/
theorem handleProposalsStream_eq (h : (readFramed stream).bind C.unmarshalBlock = some block) (cycle : UInt64) :
    (b.handleProposalsStream C stream).getProposed cycle =
      if cycle = block.index then some block else b.getProposed cycle := by
  simp only [handleProposalsStream, h, getProposed, Function.update_apply]

/-- **The proposal handler** keeps the candidates exactly if the message is harmless. -/
theorem handleProposalsStream_keeps_iff (stream : Bytes) :
    KeepsCandidates b (b.handleProposalsStream C stream) ↔ Harmless C b (.receive .proposals stream) := by
  cases hblock : (readFramed stream).bind C.unmarshalBlock with
  | none =>
    have hsame : b.handleProposalsStream C stream = b := by simp only [handleProposalsStream, hblock]
    rw [hsame]
    refine ⟨fun _ s block held hs hdecode => ?_, fun _ => .refl b⟩
    cases hs
    rw [hblock] at hdecode
    cases hdecode
  | some block =>
    constructor
    · intro h s block' held hs hdecode hheld
      cases hs
      obtain rfl : block = block' := Option.some.inj (hblock.symm.trans hdecode)
      have hafter := h _ _ hheld
      rw [handleProposalsStream_eq hblock, if_pos rfl] at hafter
      exact (Option.some.inj hafter).symm
    · intro h cycle held hheld
      rw [handleProposalsStream_eq hblock]
      split
      · next hc =>
        subst hc
        rw [h stream block held rfl hblock hheld]
      · exact hheld

/-- The other protocols do not reach the candidates. -/
theorem receive_proposals {protocol : Protocol} (h : protocol ≠ .proposals) (stream : Bytes) :
    (b.receive C stream protocol).proposals = b.proposals := by
  cases protocol with
  | entries =>
    simp only [receive, handleEntriesStream]
    split
    · rfl
    · rfl
  | proposals => exact absurd rfl h
  | sigs =>
    simp only [receive, handleSigsStream]
    split
    · rfl
    · rfl
  | vrfProofs =>
    simp only [receive, handleVRFProofsStream]
    split
    · rfl
    · split
      · rfl
      · rfl

/-- **One input** keeps the candidates exactly if it is harmless. -/
theorem step_keeps_iff (i : BusInput) : KeepsCandidates b (b.step C i) ↔ Harmless C b i := by
  cases i with
  | call now wait o =>
    refine ⟨fun _ stream block held hi => ?_, fun _ => answer_keeps now wait o⟩
    cases hi
  | receive protocol stream =>
    by_cases hp : protocol = .proposals
    · subst hp
      exact handleProposalsStream_keeps_iff stream
    · refine ⟨fun _ s block held hi => ?_, fun _ => keepsCandidates_of_eq (receive_proposals hp stream)⟩
      cases hi
      exact absurd rfl hp

/-- **Candidates on the network bus.** Over any sequence of calls and messages a candidate that `GetProposed` has returned
stays exactly if every proposal message finds its slot empty or holding the block it carries. -/
theorem candidates_fixed_iff (C : Codec) (b : GossipBus) (is : List BusInput) :
    CandidatesFixed C b is ↔ ∀ u i w, is = u ++ i :: w → Harmless C (b.run C u) i := by
  refine (foldl_related_iff KeepsCandidates.refl KeepsCandidates.trans (step C) b is).trans ?_
  simp only [step_keeps_iff]
  rfl

/-- The streams on which messages reach a peer. -/
def streamsOf (ms : List Message) : List BusInput :=
  ms.filterMap fun m => (framed m.data).map (BusInput.receive m.protocol)

/-! ## Inputs as operations -/

variable (C) in
/-- The operation that an input stands for; a message that is dropped is none. -/
def asOp : BusInput → Option Op
  | .call _ _ o => some o
  | .receive .entries stream => ((readFramed stream).bind C.unmarshalEntry).map .publish
  | .receive .proposals stream => ((readFramed stream).bind C.unmarshalBlock).map fun block => .propose block ""
  | .receive .sigs stream => ((readFramed stream).bind C.unmarshalSig).map .publishSig
  | .receive .vrfProofs stream => ((readFramed stream).bind C.unmarshalVRFProof).map .publishVRFProof

end GossipBus

namespace Sample

open GossipBus

/-- A candidate of the first validator, and the block it becomes with two signatures. -/
def draft : Block := bareBlock 0 1 [entry 9] (rootOf [entry 9]) ⟨2, 2⟩

@[inherit_doc draft]
def certifiedDraft : Block := { draft with prepareSigsBitmap := [3], prepareSigs := [[1], [2]] }

/-- Encodings of the two. -/
def twoBlocks : Codec where
  marshalEntry := fun _ => []
  unmarshalEntry := fun _ => none
  marshalBlock := fun block => [UInt8.ofNat block.prepareSigs.length]
  unmarshalBlock := fun data => if data = [0] then some draft else if data = [2] then some certifiedDraft else none
  marshalSig := fun _ => []
  unmarshalSig := fun _ => none
  marshalVRFProof := fun _ => []
  unmarshalVRFProof := fun _ => none

/-- What the leader sends when it proposes the one and publishes the other. -/
def leaderMessages : List Message :=
  (new.propose twoBlocks draft).2 ++ ((new.propose twoBlocks draft).1.publishFinal twoBlocks certifiedDraft).2

/-- Another node that gets both messages reads the candidate first and then the final block. -/
theorem candidate_replaced :
    (new.run twoBlocks ((streamsOf leaderMessages).take 1)).getProposed 0 = some draft ∧
      (new.run twoBlocks (streamsOf leaderMessages)).getProposed 0 = some certifiedDraft ∧ certifiedDraft ≠ draft ∧
      ¬ CandidatesFixed twoBlocks new (streamsOf leaderMessages) := by
  have hfirst : (new.run twoBlocks ((streamsOf leaderMessages).take 1)).getProposed 0 = some draft := rfl
  have hsecond : (new.run twoBlocks (streamsOf leaderMessages)).getProposed 0 = some certifiedDraft := rfl
  have hne : certifiedDraft ≠ draft := fun h => by cases congrArg Block.prepareSigs h
  refine ⟨hfirst, hsecond, hne, fun h => hne ?_⟩
  have hkept := h ((streamsOf leaderMessages).take 1) ((streamsOf leaderMessages).drop 1) []
    (by rw [List.append_nil, List.take_append_drop]) 0 draft hfirst
  rw [List.take_append_drop, hsecond] at hkept
  exact Option.some.inj hkept

end Sample

end Gleipnir
