import Gleipnir.Lib.Prog
import Gleipnir.Types
import Mathlib.Logic.Function.Basic

/-!
# The gossip channel

`consensus/gossip.go`. The engine reaches the outside through the operations `Op`: those of `GossipChannel`, the clock,
and the length of a bounded wait. A run of engine code against arbitrary responses is a run over an arbitrary channel;
`MemoryBus` is the channel the repository provides.

* `MemoryBus.Serves`: the responses a bus can give.
* `MemoryBus.Le`: what no operation takes back — candidates stay, VRF proofs are only added (`serves_le`).
-/

namespace Gleipnir

open Atomic

/-- How long a polling loop lasts: the ticks before it gives up, and whether it ends because the context is done. -/
structure Patience where
  ticks : Nat
  cancelled : Bool
  deriving DecidableEq

/-- What engine code asks of its environment. -/
inductive Op where
  | publish (entry : ProvenanceEntry)
  | snapshot
  | removeEntries (remove : List Hash)
  | propose (block : Block) (proposerID : String)
  | getProposed (cycle : UInt64)
  | publishFinal (block : Block) (proposerID : String)
  | getFinal (cycle : UInt64)
  | publishSig (sig : BlockSig)
  | getSigs (cycle : UInt64)
  | publishVRFProof (proof : VRFProofMsg)
  | getVRFProofs (cycle : UInt64)
  /-- `time.Now`, in nanoseconds. -/
  | now
  | patience

/-- The responses to an operation. -/
abbrev Op.Res : Op → Type
  | .snapshot => List ProvenanceEntry
  | .getProposed _ => Option Block
  | .getFinal _ => Option Block
  | .getSigs _ => List BlockSig
  | .getVRFProofs _ => List VRFProofMsg
  | .now => Int
  | .patience => Patience
  | _ => Unit

instance (o : Op) : Nonempty o.Res := by
  cases o <;> exact ⟨by first | exact [] | exact none | exact (0 : Int) | exact ⟨0, false⟩ | exact ()⟩

abbrev Event : Type := Atomic.Event Op Op.Res

abbrev Trace : Type := List Event

theorem not_mem_of_op {P : Op → Bool} {t : Trace} (ht : ∀ ev ∈ t, P ev.op = true) {ev : Event} (h : P ev.op = false) :
    ev ∉ t := by
  intro hev
  rw [ht ev hev] at h
  cases h

/-! ## The in-memory bus -/

/-- `consensus.MemoryBus`. -/
structure MemoryBus where
  entries : List ProvenanceEntry
  proposals : UInt64 → Option Block
  finals : UInt64 → Option Block
  sigs : UInt64 → List BlockSig
  vrfProofs : UInt64 → List VRFProofMsg

namespace MemoryBus

/-- `NewMemoryBus`. -/
def new : MemoryBus := ⟨[], fun _ => none, fun _ => none, fun _ => [], fun _ => []⟩

/-- `Propose`: the first candidate of an index stays. -/
def propose (b : MemoryBus) (block : Block) : MemoryBus :=
  match b.proposals block.index with
  | some _ => b
  | none => { b with proposals := Function.update b.proposals block.index (some block) }

/-- `PublishSig`: one signature for each signer and cycle. -/
def publishSig (b : MemoryBus) (sig : BlockSig) : MemoryBus :=
  if ∃ s ∈ b.sigs sig.cycle, s.signerID = sig.signerID then b
  else { b with sigs := Function.update b.sigs sig.cycle (b.sigs sig.cycle ++ [sig]) }

/-- `PublishVRFProof`: one proof for each signer and cycle. -/
def publishVRFProof (b : MemoryBus) (proof : VRFProofMsg) : MemoryBus :=
  if ∃ p ∈ b.vrfProofs proof.cycle, p.signerID = proof.signerID then b
  else { b with vrfProofs := Function.update b.vrfProofs proof.cycle (b.vrfProofs proof.cycle ++ [proof]) }

/-- One operation of the bus; the clock reads `now` and a wait lasts `wait`. -/
def answer (now : Int) (wait : Patience) (b : MemoryBus) : (o : Op) → o.Res × MemoryBus
  | .publish entry => ((), { b with entries := b.entries ++ [entry] })
  | .snapshot => (b.entries, b)
  | .removeEntries remove => ((), { b with entries := b.entries.filter fun e => e.hash ∉ remove })
  | .propose block _ => ((), b.propose block)
  | .getProposed cycle => (b.proposals cycle, b)
  | .publishFinal block _ => ((), { b with finals := Function.update b.finals block.index (some block) })
  | .getFinal cycle => (b.finals cycle, b)
  | .publishSig sig => ((), b.publishSig sig)
  | .getSigs cycle => (b.sigs cycle, b)
  | .publishVRFProof proof => ((), b.publishVRFProof proof)
  | .getVRFProofs cycle => (b.vrfProofs cycle, b)
  | .now => (now, b)
  | .patience => (wait, b)

/-- The bus `b` can answer `o` by `r` and is `b'` afterwards. -/
def Serves (b : MemoryBus) (o : Op) (r : o.Res) (b' : MemoryBus) : Prop :=
  ∃ now wait, b.answer now wait o = (r, b')

/-- `b'` keeps the candidates of `b` and has only added VRF proofs. -/
structure Le (b b' : MemoryBus) : Prop where
  proposals : ∀ c block, b.proposals c = some block → b'.proposals c = some block
  vrfProofs : ∀ c, b.vrfProofs c <+: b'.vrfProofs c

theorem Le.refl (b : MemoryBus) : Le b b := ⟨fun _ _ h => h, fun _ => List.prefix_rfl⟩

theorem Le.trans {a b c : MemoryBus} (h₁ : Le a b) (h₂ : Le b c) : Le a c :=
  ⟨fun i block h => h₂.proposals i block (h₁.proposals i block h), fun i => (h₁.vrfProofs i).trans (h₂.vrfProofs i)⟩

theorem propose_le (b : MemoryBus) (block : Block) : Le b (b.propose block) := by
  unfold propose
  cases h : b.proposals block.index with
  | some _ => exact Le.refl b
  | none =>
    refine ⟨fun c c' hc => ?_, fun _ => List.prefix_rfl⟩
    have hne : c ≠ block.index := by
      rintro rfl
      rw [h] at hc
      cases hc
    simpa [Function.update_of_ne hne] using hc

theorem publishVRFProof_le (b : MemoryBus) (proof : VRFProofMsg) : Le b (b.publishVRFProof proof) := by
  unfold publishVRFProof
  split
  · exact Le.refl b
  · refine ⟨fun _ _ h => h, fun c => ?_⟩
    by_cases hc : c = proof.cycle
    · subst hc
      simp
    · simp [Function.update_of_ne hc]

/-- No operation takes a candidate or a VRF proof back. -/
theorem serves_le {b b' : MemoryBus} {o : Op} {r : o.Res} (h : b.Serves o r b') : Le b b' := by
  obtain ⟨now, wait, h⟩ := h
  have hb : b' = (b.answer now wait o).2 := by rw [h]
  subst hb
  cases o with
  | propose block id => exact propose_le b block
  | publishVRFProof proof => exact publishVRFProof_le b proof
  | publishSig sig =>
    simp only [answer, publishSig]
    split
    · exact Le.refl b
    · exact ⟨fun _ _ h => h, fun _ => List.prefix_rfl⟩
  | _ => exact ⟨fun _ _ h => h, fun _ => List.prefix_rfl⟩

end MemoryBus

end Gleipnir
