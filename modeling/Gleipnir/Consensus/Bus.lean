import Gleipnir.Lib.Served
import Gleipnir.Consensus.ElectionSpec

/-!
# An engine on a shared bus

The calls of an engine on a `MemoryBus` that others use at the same time, in any way (`MemoryBus.ServedBy`).

* `servedBy_candidate`: a candidate that was read is still in its slot.
* `servedBy_proofs_mono`: the VRF proofs read later extend those read before, so the elections of a cycle agree
  (`servedBy_elected`).
-/

namespace Gleipnir

open Atomic

namespace MemoryBus

/-- The calls `t` of an engine were served by the bus, on which anyone else may have made any calls in between. -/
abbrev ServedBy : MemoryBus → Trace → MemoryBus → Prop :=
  Served (fun b b' => ∃ o r, b.Serves o r b') fun _ b ev b' => b.Serves ev.op ev.res b'

variable {b b' : MemoryBus} {t u : Trace} {n : UInt64}

theorem servedBy_le (h : b.ServedBy t b') : Le b b' :=
  h.related Le.refl Le.trans (fun _ _ ⟨_, _, hs⟩ => serves_le hs) fun _ _ _ _ hs => serves_le hs

theorem serves_getProposed {r : Option Block} (h : b.Serves (.getProposed n) r b') : r = b.proposals n ∧ b' = b := by
  obtain ⟨now, wait, h⟩ := h
  cases h
  exact ⟨rfl, rfl⟩

theorem serves_getFinal {r : Option Block} (h : b.Serves (.getFinal n) r b') : r = b.finals n ∧ b' = b := by
  obtain ⟨now, wait, h⟩ := h
  cases h
  exact ⟨rfl, rfl⟩

theorem serves_getVRFProofs {r : List VRFProofMsg} (h : b.Serves (.getVRFProofs n) r b') :
    r = b.vrfProofs n ∧ b' = b := by
  obtain ⟨now, wait, h⟩ := h
  cases h
  exact ⟨rfl, rfl⟩

/-- A candidate that was read is in its slot ever after. -/
theorem servedBy_candidate (h : b.ServedBy t b') {block : Block} (hread : ⟨.getProposed n, some block⟩ ∈ t) :
    b'.proposals n = some block := by
  obtain ⟨u, v, rfl⟩ := List.append_of_mem hread
  obtain ⟨b₁, b₂, -, hs, hrest⟩ := h.at_call
  obtain ⟨hr, rfl⟩ := serves_getProposed hs
  exact (servedBy_le hrest).proposals n block hr.symm

/-! ## Proofs -/

/-- The calls read VRF proofs of the cycle `n` only. -/
def ReadsProofsOf (n : UInt64) (t : Trace) : Prop := ∀ ev ∈ t, ∀ c, ev.op = .getVRFProofs c → c = n

theorem ReadsProofsOf.append (ht : ReadsProofsOf n t) (hu : ReadsProofsOf n u) : ReadsProofsOf n (t ++ u) := by
  intro ev hev
  rcases List.mem_append.1 hev with hev | hev
  · exact ht ev hev
  · exact hu ev hev

theorem ReadsProofsOf.left (h : ReadsProofsOf n (t ++ u)) : ReadsProofsOf n t := fun ev hev =>
  h ev (List.mem_append_left _ hev)

theorem lastVRFProofs_snoc (t : Trace) (ev : Event) :
    (∃ c msgs, ev = ⟨.getVRFProofs c, msgs⟩ ∧ lastVRFProofs (t ++ [ev]) = msgs) ∨
      lastVRFProofs (t ++ [ev]) = lastVRFProofs t := by
  rw [lastVRFProofs, List.foldl_append, List.foldl_cons, List.foldl_nil, ← lastVRFProofs]
  unfold nextVRFProofs
  split
  · exact .inl ⟨_, _, rfl, rfl⟩
  · exact .inr rfl

/-- The proofs read last are still on the bus. -/
theorem servedBy_proofs (h : b.ServedBy t b') (hn : ReadsProofsOf n t) : lastVRFProofs t <+: b'.vrfProofs n := by
  induction h with
  | nil => exact List.nil_prefix
  | foreign _ hf ih =>
    obtain ⟨o, r, hs⟩ := hf
    exact (ih hn).trans ((serves_le hs).vrfProofs n)
  | @own b₁ b₂ t ev _ hs ih =>
    rcases lastVRFProofs_snoc t ev with ⟨c, msgs, rfl, hlast⟩ | hlast
    · obtain rfl := hn _ (List.mem_append_right _ List.mem_cons_self) c rfl
      obtain ⟨rfl, rfl⟩ := serves_getVRFProofs hs
      rw [hlast]
    · rw [hlast]
      exact (ih hn.left).trans ((serves_le hs).vrfProofs n)

/-- Later reads extend earlier ones. -/
theorem servedBy_proofs_mono (h : b.ServedBy (t ++ u) b') (hn : ReadsProofsOf n (t ++ u)) :
    lastVRFProofs t <+: lastVRFProofs (t ++ u) := by
  induction u using List.reverseRecOn generalizing b' with
  | nil => rw [List.append_nil]
  | append_singleton w ev ih =>
    rw [← List.append_assoc] at h hn ⊢
    obtain ⟨b₁, b₂, h₁, hs, -⟩ := h.at_call
    have hmono := ih h₁ hn.left
    rcases lastVRFProofs_snoc (t ++ w) ev with ⟨c, msgs, rfl, hlast⟩ | hlast
    · obtain rfl := hn _ (List.mem_append_right _ List.mem_cons_self) c rfl
      obtain ⟨rfl, rfl⟩ := serves_getVRFProofs hs
      rw [hlast]
      exact hmono.trans (servedBy_proofs h₁ hn.left)
    · rw [hlast]
      exact hmono

/-- Elections of one cycle on a bus agree. -/
theorem servedBy_elected (X : Prims) {e : Engine} {root : Hash} {p q : Peer} (h : b.ServedBy (t ++ u) b')
    (hn : ReadsProofsOf n (t ++ u)) (hp : electedBy X e n root t = some p)
    (hq : electedBy X e n root (t ++ u) = some q) : p = q :=
  electedBy_of_prefix X (servedBy_proofs_mono h hn) hp hq

end MemoryBus

end Gleipnir
