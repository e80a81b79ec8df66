import Gleipnir.Consensus.Bus
import Gleipnir.Lib.FirstWins
import Gleipnir.Transport.GossipBus

/-!
# What a bus holds

The signatures and the VRF proofs on a bus are determined by the messages that reached it, whoever sent them. The bus in
memory keeps the first message of each signer (`sigs_after`, `vrfProofs_after`); the network bus keeps all signatures, and of
the proofs the first of each signer (`sigs_run`, `vrfProofs_run`). `Holds` is either bus after a history, and for both the
message that counts for a signer is the first one (`Holds.first_sig`, `Holds.proofs_eq`).
-/

namespace Gleipnir

open Atomic FirstWins

/-- The signature that an operation publishes for a cycle. -/
def Op.sigFor (n : UInt64) : Op → Option BlockSig
  | .publishSig sig => if sig.cycle = n then some sig else none
  | _ => none

/-- The VRF proof that an operation publishes for a cycle. -/
def Op.proofFor (n : UInt64) : Op → Option VRFProofMsg
  | .publishVRFProof proof => if proof.cycle = n then some proof else none
  | _ => none

/-- The signatures published for a cycle, in the order in which they came. -/
def sigsFor (n : UInt64) (os : List Op) : List BlockSig := os.filterMap (Op.sigFor n)

@[inherit_doc sigsFor]
def proofsFor (n : UInt64) (os : List Op) : List VRFProofMsg := os.filterMap (Op.proofFor n)

theorem proofsFor_append (n : UInt64) (os os' : List Op) : proofsFor n (os ++ os') = proofsFor n os ++ proofsFor n os' :=
  List.filterMap_append

theorem sigsFor_concat (n : UInt64) (os : List Op) (o : Op) : sigsFor n (os ++ [o]) = sigsFor n os ++ (o.sigFor n).toList :=
  List.filterMap_append

theorem proofsFor_concat (n : UInt64) (os : List Op) (o : Op) :
    proofsFor n (os ++ [o]) = proofsFor n os ++ (o.proofFor n).toList :=
  List.filterMap_append

/-- What a store does with at most one message. -/
theorem firsts_concat {α κ : Type} [DecidableEq κ] {key : α → κ} (l : List α) (o : Option α) :
    firsts key (l ++ o.toList) = o.toList.foldl (keep key) (firsts key l) := by
  rw [firsts, List.foldl_append, ← firsts]

/-- A message for the cycle `c`, seen from the cycle `n`: it is kept as the first of its key, -/
theorem slot_keep {α κ : Type} [DecidableEq κ] (key : α → κ) (slots : UInt64 → List α) (c n : UInt64) (a : α) :
    (if ∃ x ∈ slots c, key x = key a then slots else Function.update slots c (slots c ++ [a])) n =
      (if c = n then some a else none : Option α).toList.foldl (keep key) (slots n) := by
  by_cases hn : c = n
  · subst hn
    rw [if_pos rfl]
    change _ = keep key (slots c) a
    unfold keep
    split
    · rfl
    · exact Function.update_self _ _ _
  · rw [if_neg hn]
    change _ = slots n
    split
    · rfl
    · exact Function.update_of_ne (Ne.symm hn) _ _

/-- or appended. -/
theorem slot_append {α : Type} (slots : UInt64 → List α) (c n : UInt64) (a : α) :
    Function.update slots c (slots c ++ [a]) n = slots n ++ (if c = n then some a else none : Option α).toList := by
  by_cases hn : c = n
  · subst hn
    rw [Function.update_self, if_pos rfl]
    rfl
  · rw [Function.update_of_ne (Ne.symm hn), if_neg hn]
    exact (List.append_nil _).symm

/-! ## The bus in memory -/

namespace MemoryBus

variable {b b' : MemoryBus} {n : UInt64}

/-- The bus after operations of any callers. -/
def after (b : MemoryBus) (os : List Op) : MemoryBus := os.foldl (fun b o => (b.answer 0 ⟨0, false⟩ o).2) b

theorem after_concat (b : MemoryBus) (os : List Op) (o : Op) :
    b.after (os ++ [o]) = ((b.after os).answer 0 ⟨0, false⟩ o).2 := List.foldl_concat _ _ _ _

theorem publishSig_sigs (sig : BlockSig) :
    (b.publishSig sig).sigs n = ((Op.publishSig sig).sigFor n).toList.foldl (keep BlockSig.signerID) (b.sigs n) := by
  refine Eq.trans ?_ (slot_keep BlockSig.signerID b.sigs sig.cycle n sig)
  unfold publishSig
  split
  · rfl
  · rfl

theorem publishVRFProof_vrfProofs (proof : VRFProofMsg) : (b.publishVRFProof proof).vrfProofs n =
    ((Op.publishVRFProof proof).proofFor n).toList.foldl (keep VRFProofMsg.signerID) (b.vrfProofs n) := by
  refine Eq.trans ?_ (slot_keep VRFProofMsg.signerID b.vrfProofs proof.cycle n proof)
  unfold publishVRFProof
  split
  · rfl
  · rfl

theorem answer_sigs (now : Int) (wait : Patience) (o : Op) :
    (b.answer now wait o).2.sigs n = (o.sigFor n).toList.foldl (keep BlockSig.signerID) (b.sigs n) := by
  cases o with
  | publishSig sig => exact publishSig_sigs sig
  | propose block id =>
    simp only [answer, propose]
    split
    · rfl
    · rfl
  | publishVRFProof proof =>
    simp only [answer, publishVRFProof]
    split
    · rfl
    · rfl
  | _ => rfl

theorem answer_vrfProofs (now : Int) (wait : Patience) (o : Op) :
    (b.answer now wait o).2.vrfProofs n = (o.proofFor n).toList.foldl (keep VRFProofMsg.signerID) (b.vrfProofs n) := by
  cases o with
  | publishVRFProof proof => exact publishVRFProof_vrfProofs proof
  | propose block id =>
    simp only [answer, propose]
    split
    · rfl
    · rfl
  | publishSig sig =>
    simp only [answer, publishSig]
    split
    · rfl
    · rfl
  | _ => rfl

/-- **The signatures on the bus in memory.** -/
theorem sigs_after (os : List Op) : (new.after os).sigs n = firsts BlockSig.signerID (sigsFor n os) := by
  induction os using List.reverseRecOn with
  | nil => rfl
  | append_singleton os o ih => rw [after_concat, answer_sigs, ih, sigsFor_concat, firsts_concat]

/-- **The VRF proofs on the bus in memory.** -/
theorem vrfProofs_after (os : List Op) : (new.after os).vrfProofs n = firsts VRFProofMsg.signerID (proofsFor n os) := by
  induction os using List.reverseRecOn with
  | nil => rfl
  | append_singleton os o ih => rw [after_concat, answer_vrfProofs, ih, proofsFor_concat, firsts_concat]

/-- What the clock and the waits are does not matter to the bus. -/
theorem answer_snd (now : Int) (wait : Patience) (o : Op) :
    (b.answer now wait o).2 = (b.answer 0 ⟨0, false⟩ o).2 := by
  cases o <;> rfl

/-- A bus that served a program has gone through operations. -/
theorem servedBy_after {t : Trace} (h : b.ServedBy t b') : ∃ os, b' = b.after os := by
  induction h with
  | nil => exact ⟨[], rfl⟩
  | foreign _ hf ih =>
    obtain ⟨os, rfl⟩ := ih
    obtain ⟨o, r, now, wait, hanswer⟩ := hf
    exact ⟨os ++ [o], by rw [after_concat, ← answer_snd now wait, hanswer]⟩
  | @own _ _ _ ev _ ho ih =>
    obtain ⟨os, rfl⟩ := ih
    obtain ⟨now, wait, hanswer⟩ := ho
    exact ⟨os ++ [ev.op], by rw [after_concat, ← answer_snd now wait, hanswer]⟩

end MemoryBus

/-! ## The network bus -/

namespace GossipBus

variable {C : Codec} {b : GossipBus} {n : UInt64}

/-- The operations that the inputs stand for. -/
def opsOf (C : Codec) (is : List BusInput) : List Op := is.filterMap (asOp C)

theorem opsOf_concat (is : List BusInput) (i : BusInput) : opsOf C (is ++ [i]) = opsOf C is ++ (asOp C i).toList :=
  List.filterMap_append

theorem run_concat (b : GossipBus) (is : List BusInput) (i : BusInput) : b.run C (is ++ [i]) = (b.run C is).step C i :=
  List.foldl_concat _ _ _ _

/-- What an input adds for a cycle: a signature is appended, a proof is kept as the first of its signer. -/
def Adds (b : GossipBus) (os : List Op) (b' : GossipBus) : Prop :=
  (∀ n, b'.sigs n = b.sigs n ++ sigsFor n os) ∧
    ∀ n, b'.vrfProofs n = (proofsFor n os).foldl (keep VRFProofMsg.signerID) (b.vrfProofs n)

/-- An operation that publishes neither adds nothing. -/
theorem adds_quiet {b b' : GossipBus} {os : List Op} (hsigs : b'.sigs = b.sigs) (hproofs : b'.vrfProofs = b.vrfProofs)
    (h : ∀ o ∈ os, ∀ n, o.sigFor n = none ∧ o.proofFor n = none) : Adds b os b' := by
  refine ⟨fun n => ?_, fun n => ?_⟩
  · have hnone : sigsFor n os = [] := List.filterMap_eq_nil_iff.2 fun o ho => (h o ho n).1
    rw [hnone, hsigs, List.append_nil]
  · have hnone : proofsFor n os = [] := List.filterMap_eq_nil_iff.2 fun o ho => (h o ho n).2
    rw [hnone, hproofs]
    rfl

theorem adds_sig (b : GossipBus) (sig : BlockSig) :
    Adds b [.publishSig sig] { b with sigs := Function.update b.sigs sig.cycle (b.sigs sig.cycle ++ [sig]) } := by
  refine ⟨fun n => (slot_append b.sigs sig.cycle n sig).trans ?_, fun _ => rfl⟩
  rw [show [Op.publishSig sig] = [] ++ [.publishSig sig] from rfl, sigsFor_concat]
  rfl

theorem adds_proof (b : GossipBus) (proof : VRFProofMsg) : Adds b [.publishVRFProof proof]
    (if ∃ p ∈ b.vrfProofs proof.cycle, p.signerID = proof.signerID then b else b.keepVRFProof proof) := by
  refine ⟨fun n => ?_, fun n => ?_⟩
  · split
    · exact (List.append_nil _).symm
    · exact (List.append_nil _).symm
  · rw [show [Op.publishVRFProof proof] = [] ++ [.publishVRFProof proof] from rfl, proofsFor_concat]
    refine Eq.trans ?_ (slot_keep VRFProofMsg.signerID b.vrfProofs proof.cycle n proof)
    split
    · rfl
    · rfl

/-- **One input** adds what the operation it stands for publishes. -/
theorem step_adds (i : BusInput) : Adds b (asOp C i).toList (b.step C i) := by
  have hquiet : ∀ o : Op, (∀ n, o.sigFor n = none ∧ o.proofFor n = none) →
      ∀ o' ∈ [o], ∀ n, o'.sigFor n = none ∧ o'.proofFor n = none := fun o ho o' ho' => by
    rwa [List.mem_singleton.1 ho']
  have hdropped : Adds b ((none : Option Op).toList) b := adds_quiet rfl rfl fun o ho => by cases ho
  cases i with
  | call now wait o =>
    cases o with
    | publishSig sig => exact adds_sig b sig
    | publishVRFProof proof =>
      have hadds := adds_proof b proof
      simp only [step, answer, publishVRFProof]
      split at hadds
      · next hheld =>
        rw [if_pos hheld]
        exact hadds
      · next hheld =>
        rw [if_neg hheld]
        exact hadds
    | propose block id =>
      simp only [step, answer, propose]
      split
      · exact adds_quiet rfl rfl (hquiet _ fun _ => ⟨rfl, rfl⟩)
      · exact adds_quiet rfl rfl (hquiet _ fun _ => ⟨rfl, rfl⟩)
    | _ => exact adds_quiet rfl rfl (hquiet _ fun _ => ⟨rfl, rfl⟩)
  | receive protocol stream =>
    cases protocol with
    | entries =>
      simp only [step, receive, handleEntriesStream, asOp]
      cases (readFramed stream).bind C.unmarshalEntry with
      | none => exact hdropped
      | some entry => exact adds_quiet rfl rfl (hquiet _ fun _ => ⟨rfl, rfl⟩)
    | proposals =>
      simp only [step, receive, handleProposalsStream, asOp]
      cases (readFramed stream).bind C.unmarshalBlock with
      | none => exact hdropped
      | some block => exact adds_quiet rfl rfl (hquiet _ fun _ => ⟨rfl, rfl⟩)
    | sigs =>
      simp only [step, receive, handleSigsStream, asOp]
      cases (readFramed stream).bind C.unmarshalSig with
      | none => exact hdropped
      | some sig => exact adds_sig b sig
    | vrfProofs =>
      simp only [step, receive, handleVRFProofsStream, asOp]
      cases (readFramed stream).bind C.unmarshalVRFProof with
      | none => exact hdropped
      | some proof => exact adds_proof b proof

/-- **The signatures on the network bus.** -/
theorem sigs_run (is : List BusInput) : (new.run C is).sigs n = sigsFor n (opsOf C is) := by
  induction is using List.reverseRecOn with
  | nil => rfl
  | append_singleton is i ih =>
    rw [run_concat, (step_adds i).1, ih, opsOf_concat]
    exact List.filterMap_append.symm

/-- **The VRF proofs on the network bus.** -/
theorem vrfProofs_run (is : List BusInput) :
    (new.run C is).vrfProofs n = firsts VRFProofMsg.signerID (proofsFor n (opsOf C is)) := by
  induction is using List.reverseRecOn with
  | nil => rfl
  | append_singleton is i ih =>
    rw [run_concat, (step_adds i).2, ih, opsOf_concat, proofsFor_append, firsts, firsts, List.foldl_append]

end GossipBus

/-! ## Either bus -/

/-- The signatures and VRF proofs of a bus that was new and on which `os` have happened. -/
inductive Holds : List Op → (UInt64 → List BlockSig) → (UInt64 → List VRFProofMsg) → Prop
  | memory (os : List Op) : Holds os (MemoryBus.new.after os).sigs (MemoryBus.new.after os).vrfProofs
  | network (C : Codec) (is : List BusInput) :
      Holds (GossipBus.opsOf C is) (GossipBus.new.run C is).sigs (GossipBus.new.run C is).vrfProofs

namespace Holds

variable {os : List Op} {sigs : UInt64 → List BlockSig} {proofs : UInt64 → List VRFProofMsg} {n : UInt64}

/-- **The signature that counts for a signer** is the first that came. -/
theorem first_sig (h : Holds os sigs proofs) (id : String) :
    first BlockSig.signerID id (sigs n) = first BlockSig.signerID id (sigsFor n os) := by
  cases h with
  | memory os => rw [MemoryBus.sigs_after, find?_firsts]
  | network C is => rw [GossipBus.sigs_run]

/-- **The VRF proofs** are the first that came of each signer. -/
theorem proofs_eq (h : Holds os sigs proofs) : proofs n = firsts VRFProofMsg.signerID (proofsFor n os) := by
  cases h with
  | memory os => exact MemoryBus.vrfProofs_after os
  | network C is => exact GossipBus.vrfProofs_run is

end Holds

end Gleipnir
