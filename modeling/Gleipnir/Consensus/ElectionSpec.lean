import Gleipnir.Consensus.Prepare
import Gleipnir.Lib.FirstWins

/-!
# What an election does

The election reads the VRF proofs on the channel and changes nothing in the engine (`runs_elect`). Its outcome depends on
the last proofs read, `lastVRFProofs`; proofs that arrive later never replace one (`lookup_proofsFrom_mono`), so on a
channel that only adds proofs two elections of a cycle agree (`electedBy_of_prefix`).
-/

namespace Gleipnir

open Atomic Atomic.Body

variable (X : Prims)

/-- The calls an election of the cycle makes. -/
def Op.electing (cycle : UInt64) : Op → Bool
  | .getVRFProofs c => c == cycle
  | .publishVRFProof _ | .patience => true
  | _ => false

/-! ## The proofs an election uses -/

/-- The proofs read last, after an event. -/
def nextVRFProofs (last : List VRFProofMsg) : Event → List VRFProofMsg
  | ⟨.getVRFProofs _, msgs⟩ => msgs
  | _ => last

/-- The answer to the last `GetVRFProofs` of a trace. -/
def lastVRFProofs (t : Trace) : List VRFProofMsg := t.foldl nextVRFProofs []

/-- The peer elected in a cycle, by the proofs read last in `t`. -/
def electedBy (e : Engine) (cycle : UInt64) (root : Hash) (t : Trace) : Option Peer :=
  match e.node.uid.vrfProve X (makeAlpha cycle root.toList) with
  | none => none
  | some localProof =>
    match selectProposer X e.proposerPeers cycle root.toList (proofsFrom e.node.uid.id localProof (lastVRFProofs t)) with
    | .error _ => none
    | .ok (p, _) => some p

variable {t u : Trace} {e e' : Engine} {cycle : UInt64} {root : Hash} {msgs : List VRFProofMsg} {id : String} {p : Peer}
  {localProof : VRFProof} {m m' : VRFProofs} {peers : List Peer} {r : Peer × VRFProof} {x : Exit VRFProofs}

theorem foldl_nextVRFProofs_quiet (h : ∀ ev ∈ t, ∀ c, ev.op ≠ .getVRFProofs c) (last : List VRFProofMsg) :
    t.foldl nextVRFProofs last = last := by
  induction t generalizing last with
  | nil => rfl
  | cons ev t ih =>
    have hev : nextVRFProofs last ev = last := by
      unfold nextVRFProofs
      split
      · exact absurd rfl (h _ (List.mem_cons_self ..) _)
      · rfl
    rw [List.foldl_cons, hev]
    exact ih (fun ev' h' => h ev' (List.mem_cons_of_mem _ h')) last

/-- Events that read no proofs do not matter. -/
theorem lastVRFProofs_append_quiet (h : ∀ ev ∈ u, ∀ c, ev.op ≠ .getVRFProofs c) : lastVRFProofs (t ++ u) = lastVRFProofs t := by
  rw [lastVRFProofs, List.foldl_append]
  exact foldl_nextVRFProofs_quiet h _

theorem electedBy_append_quiet (h : ∀ ev ∈ u, ∀ c, ev.op ≠ .getVRFProofs c) :
    electedBy X e cycle root (t ++ u) = electedBy X e cycle root t := by
  simp only [electedBy, lastVRFProofs_append_quiet h]

theorem lastVRFProofs_concat (t : Trace) (c : UInt64) (msgs : List VRFProofMsg) :
    lastVRFProofs (t ++ [⟨.getVRFProofs c, msgs⟩]) = msgs := by
  rw [lastVRFProofs, List.foldl_append]
  rfl

/-! ## Proofs are never replaced -/

/-- The proofs are a map that is filled with the first readable message of each signer. -/
theorem addProof_eq : addProof = FirstWins.offer VRFProofMsg.signerID fun m => (unmarshalVRFProof m.proof).map some := by
  funext proofs m
  cases hp : unmarshalVRFProof m.proof with
  | none => simp only [addProof, FirstWins.offer, hp, Option.map_none]
  | some p => simp only [addProof, FirstWins.offer, hp, Option.map_some]

theorem lookup_foldl_addProof {proofs : VRFProofs} {p : Option VRFProof} (h : proofs.lookup id = some p) :
    (msgs.foldl addProof proofs).lookup id = some p := by
  rw [addProof_eq, FirstWins.lookup_foldl_offer, h, Option.some_or]

/-- More messages leave the proofs already collected as they are. -/
theorem lookup_proofsFrom_mono {me : String} {msgs' : List VRFProofMsg} (h : msgs <+: msgs') {p : Option VRFProof}
    (hp : (proofsFrom me localProof msgs).lookup id = some p) : (proofsFrom me localProof msgs').lookup id = some p := by
  obtain ⟨rest, rfl⟩ := h
  rw [proofsFrom, List.foldl_append]
  exact lookup_foldl_addProof hp

theorem lookup_proofsFrom_self (me : String) (localProof : VRFProof) (msgs : List VRFProofMsg) :
    (proofsFrom me localProof msgs).lookup me = some (some localProof) :=
  lookup_foldl_addProof (AList.lookup_insert (s := ∅))

/-- The election depends on the proofs of the peers only. -/
theorem selectFrom_congr {alpha : Bytes} : ∀ {peers : List Peer} {best : Option Ballot},
    (∀ p ∈ peers, m.lookup p.uid.id = m'.lookup p.uid.id) → selectFrom X alpha m peers best = selectFrom X alpha m' peers best
  | [], _, _ => rfl
  | p :: ps, best, h => by
    have hb : ballot X alpha m p = ballot X alpha m' p := by
      simp only [ballot, h p (List.mem_cons_self ..)]
    have ih : ∀ best, selectFrom X alpha m ps best = selectFrom X alpha m' ps best :=
      fun _ => selectFrom_congr fun q hq => h q (List.mem_cons_of_mem _ hq)
    simp only [selectFrom, hb, ih]

theorem selectProposer_congr {c : UInt64} {r : Bytes} (h : ∀ p ∈ peers, m.lookup p.uid.id = m'.lookup p.uid.id) :
    selectProposer X peers c r m = selectProposer X peers c r m' := by
  cases peers with
  | nil => rfl
  | cons p ps => simp only [selectProposer, selectProposerVRF, selectFrom_congr X h]

/-- A selection that succeeds has found a proof of every peer. -/
theorem lookup_of_selectProposer {root : Bytes} (h : selectProposer X peers cycle root m = .ok r) (hp : p ∈ peers) :
    ∃ π, m.lookup p.uid.id = some (some π) := by
  obtain ⟨b, bs, hbs, -⟩ := (selectProposerVRF_ok X).1 h
  obtain ⟨b', -, hb'⟩ := hbs.of_peer hp
  exact ⟨b'.proof, ((ballot_ok X).1 hb').2.1⟩

/-- Two elections of one cycle agree when one has seen all the proofs of the other. -/
theorem electedBy_of_prefix {q : Peer} (h : lastVRFProofs t <+: lastVRFProofs u) (hp : electedBy X e cycle root t = some p)
    (hq : electedBy X e cycle root u = some q) : p = q := by
  unfold electedBy at hp hq
  cases hprove : e.node.uid.vrfProve X (makeAlpha cycle root.toList) with
  | none => simp [hprove] at hp
  | some localProof =>
    simp only [hprove] at hp hq
    cases hs : selectProposer X e.proposerPeers cycle root.toList
        (proofsFrom e.node.uid.id localProof (lastVRFProofs t)) with
    | error err => simp [hs] at hp
    | ok r =>
      -- every peer's proof is in the smaller set, hence the same in the larger one
      have hsame : ∀ p' ∈ e.proposerPeers,
          (proofsFrom e.node.uid.id localProof (lastVRFProofs t)).lookup p'.uid.id =
            (proofsFrom e.node.uid.id localProof (lastVRFProofs u)).lookup p'.uid.id := fun p' hp' => by
        obtain ⟨π, hπ⟩ := lookup_of_selectProposer X hs hp'
        exact hπ.trans (lookup_proofsFrom_mono h hπ).symm
      have hcongr := selectProposer_congr X (c := cycle) (r := root.toList) hsame
      rw [← hcongr, hs] at hq
      rw [hs] at hp
      exact Option.some.inj (hp.symm.trans hq)

/-! ## The run of an election -/

theorem runs_collectVRFProofs (h : Runs (collectVRFProofs cycle localProof) e t x e') :
    e' = e ∧ ∃ msgs, x = .done (proofsFrom e.node.uid.id localProof msgs) ∧
      (e.hasGossip = true ∧ t = [⟨.getVRFProofs cycle, msgs⟩] ∨ e.hasGossip = false ∧ t = []) := by
  unfold collectVRFProofs at h
  rw [runs_get_bind] at h
  cases hg : e.hasGossip with
  | true =>
    simp only [hg, if_true] at h
    obtain ⟨msgs, t', rfl, h'⟩ := runs_perform_bind.1 h
    obtain ⟨rfl, rfl, rfl⟩ := runs_pure.1 h'
    exact ⟨rfl, msgs, rfl, .inl ⟨rfl, rfl⟩⟩
  | false =>
    simp only [hg, Bool.false_eq_true, if_false] at h
    obtain ⟨rfl, rfl, rfl⟩ := runs_pure.1 h
    exact ⟨rfl, [], rfl, .inr ⟨rfl, rfl⟩⟩

theorem reads_collectVRFProofs (cycle : UInt64) (localProof : VRFProof) :
    Reads (fun ev => ev.op.electing cycle) False (collectVRFProofs cycle localProof) :=
  within_bind within_get fun _ => within_ite
    (within_bind (within_perform fun _ => beq_self_eq_true cycle) fun _ => within_pure _) (within_pure _)

theorem reads_waitForVRFProofs (cycle : UInt64) (localProof : VRFProof) (want : Nat) :
    Reads (fun ev => ev.op.electing cycle) False (waitForVRFProofs cycle localProof want) :=
  within_bind (within_perform fun _ => rfl) fun _ =>
    within_bind (within_poll (reads_collectVRFProofs cycle localProof) _ _) fun _ => within_pure _

/-- The proofs gathered are those read last. -/
theorem runs_gatherVRFProofs (h : Runs (gatherVRFProofs cycle localProof) e t x e') :
    e' = e ∧ (∀ ev ∈ t, ev.op.electing cycle) ∧ ∃ msgs, x = .done (proofsFrom e.node.uid.id localProof msgs) ∧
      (e.hasGossip = true → ⟨.getVRFProofs cycle, msgs⟩ ∈ t ∧ ∀ u, lastVRFProofs (u ++ t) = msgs) := by
  unfold gatherVRFProofs at h
  rcases runs_bind.1 h with ⟨t₁, proofs, e₁, t₂, rfl, h₁, h₂⟩ | ⟨-, h⟩
  · have hr₁ := (reads_collectVRFProofs _ _ _ _ _ _ h₁).2.1
    obtain ⟨rfl, msgs, hx, ht⟩ := runs_collectVRFProofs h₁
    rw [runs_get_bind] at h₂
    split at h₂
    · next hc =>
      rcases runs_bind.1 h₂ with ⟨t₃, _, e₂, t₄, rfl, h₃, h₄⟩ | ⟨-, h⟩
      · obtain ⟨rfl, hr₃, -⟩ := reads_waitForVRFProofs _ _ _ _ _ _ _ h₃
        have hr₄ := (reads_collectVRFProofs _ _ _ _ _ _ h₄).2.1
        obtain ⟨rfl, msgs', hx', ht'⟩ := runs_collectVRFProofs h₄
        refine ⟨rfl, ?_, msgs', hx', fun hg => ?_⟩
        · intro ev hev
          simp only [List.mem_append] at hev
          rcases hev with hev | hev | hev
          · exact hr₁ ev hev
          · exact hr₃ ev hev
          · exact hr₄ ev hev
        · rcases ht' with ⟨-, rfl⟩ | ⟨hg', -⟩
          · refine ⟨by simp, fun u => ?_⟩
            rw [← List.append_assoc, ← List.append_assoc]
            exact lastVRFProofs_concat _ _ _
          · rw [hg] at hg'
            cases hg'
      · exact ((reads_waitForVRFProofs _ _ _ _ _ _ _ h).2.2 rfl).elim
    · obtain ⟨rfl, rfl, rfl⟩ := runs_pure.1 h₂
      cases hx
      refine ⟨rfl, by simpa using hr₁, msgs, rfl, fun hg => ?_⟩
      rcases ht with ⟨-, rfl⟩ | ⟨hg', -⟩
      · rw [List.append_nil]
        exact ⟨List.mem_cons_self, fun u => lastVRFProofs_concat _ _ _⟩
      · rw [hg] at hg'
        cases hg'
  · exact ((reads_collectVRFProofs _ _ _ _ _ _ h).2.2 rfl).elim

theorem reads_announceProof (cycle : UInt64) (localProof : VRFProof) :
    Reads (fun ev => ev.op.electing cycle) False (announceProof cycle localProof) :=
  within_bind within_get fun _ => within_ite (within_perform fun _ => rfl) (within_pure _)

/-- Without gossip the election is decided by the node's own proof, whatever was read before. -/
theorem electedBy_single (hg : e.hasGossip = false) (cycle : UInt64) (root : Hash)
    (hprove : e.node.uid.vrfProve X (makeAlpha cycle root.toList) = some localProof) (msgs : List VRFProofMsg) (t : Trace)
    (h : selectProposer X e.proposerPeers cycle root.toList (proofsFrom e.node.uid.id localProof msgs) = .ok r) :
    electedBy X e cycle root t = some r.1 := by
  have hsame : ∀ p ∈ e.proposerPeers,
      (proofsFrom e.node.uid.id localProof (lastVRFProofs t)).lookup p.uid.id =
        (proofsFrom e.node.uid.id localProof msgs).lookup p.uid.id := fun p hp => by
    obtain rfl : p = e.node.asPeer := by simpa [Engine.proposerPeers, hg] using hp
    exact (lookup_proofsFrom_self ..).trans (lookup_proofsFrom_self ..).symm
  simp only [electedBy, hprove, selectProposer_congr X hsame, h]

/-- What an election makes of a selection. -/
def electionOutcome : Except ElectionError (Peer × VRFProof) → Except PrepareError Peer
  | .error err => .error (.selection err)
  | .ok (p, _) => .ok p

/-- An election ends with the selection from the node's own proof and the messages it has read. -/
theorem runs_elect_outcome {x : Exit (Except PrepareError Peer)}
    (hprove : e.node.uid.vrfProve X (makeAlpha cycle root.toList) = some localProof) (h : Runs (elect X cycle root) e t x e') :
    e' = e ∧ (∀ ev ∈ t, ev.op.electing cycle) ∧ ∃ msgs,
      (e.hasGossip = true → ⟨.getVRFProofs cycle, msgs⟩ ∈ t ∧ ∀ u, lastVRFProofs (u ++ t) = msgs) ∧
      x = .done (electionOutcome (selectProposer X e.proposerPeers cycle root.toList
        (proofsFrom e.node.uid.id localProof msgs))) := by
  unfold elect at h
  rw [runs_get_bind] at h
  simp only [hprove] at h
  rcases runs_bind.1 h with ⟨t₁, _, e₁, t₂, rfl, h₁, h₂⟩ | ⟨-, h⟩
  · obtain ⟨rfl, hr₁, -⟩ := reads_announceProof _ _ _ _ _ _ h₁
    rcases runs_bind.1 h₂ with ⟨t₃, proofs, e₂, t₄, rfl, h₃, h₄⟩ | ⟨-, h⟩
    · obtain ⟨rfl, hr₃, msgs, hx, hread⟩ := runs_gatherVRFProofs h₃
      cases hx
      have hr : ∀ ev ∈ t₁ ++ t₃, ev.op.electing cycle := fun ev hev => by
        rcases List.mem_append.1 hev with hev | hev
        · exact hr₁ ev hev
        · exact hr₃ ev hev
      have hread' : e₂.hasGossip = true → ⟨.getVRFProofs cycle, msgs⟩ ∈ t₁ ++ t₃ ∧
          ∀ u, lastVRFProofs (u ++ (t₁ ++ t₃)) = msgs := fun hg =>
        ⟨List.mem_append_right _ (hread hg).1, fun u => by rw [← List.append_assoc]; exact (hread hg).2 _⟩
      cases hs : selectProposer X e₂.proposerPeers cycle root.toList (proofsFrom e₂.node.uid.id localProof msgs) with
      | error err =>
        simp only [hs] at h₄
        obtain ⟨rfl, rfl, rfl⟩ := runs_pure.1 h₄
        rw [List.append_nil]
        exact ⟨rfl, hr, msgs, hread', by rw [hs]; rfl⟩
      | ok r =>
        simp only [hs] at h₄
        obtain ⟨rfl, rfl, rfl⟩ := runs_pure.1 h₄
        rw [List.append_nil]
        exact ⟨rfl, hr, msgs, hread', by rw [hs]; rfl⟩
    · obtain ⟨-, -, msgs, hx, -⟩ := runs_gatherVRFProofs h
      cases hx
  · exact ((reads_announceProof _ _ _ _ _ _ h).2.2 rfl).elim

/-- The peer elected on the proofs `msgs`. -/
def electedOn (e : Engine) (cycle : UInt64) (root : Hash) (msgs : List VRFProofMsg) : Option Peer :=
  electedBy X e cycle root [⟨.getVRFProofs cycle, msgs⟩]

theorem electedBy_eq_electedOn (h : lastVRFProofs t = msgs) : electedBy X e cycle root t = electedOn X e cycle root msgs := by
  unfold electedOn electedBy
  rw [h]
  rfl

/-- An election with the calls `t` gives `p`, whatever happened before; with a channel, on proofs that `t` has read. -/
structure Elected (e : Engine) (cycle : UInt64) (root : Hash) (t : Trace) (p : Peer) : Prop where
  outcome : ∀ u, electedBy X e cycle root (u ++ t) = some p
  read : e.hasGossip = true → ∃ msgs, ⟨.getVRFProofs cycle, msgs⟩ ∈ t ∧ electedOn X e cycle root msgs = some p

/-- The calls that follow an election do not change its outcome. -/
theorem Elected.append_quiet (h : Elected X e cycle root t p) (hu : ∀ ev ∈ u, ∀ c, ev.op ≠ .getVRFProofs c) :
    Elected X e cycle root (t ++ u) p where
  outcome w := by
    rw [← List.append_assoc, electedBy_append_quiet X hu]
    exact h.outcome w
  read hg := by
    obtain ⟨msgs, hmem, hp⟩ := h.read hg
    exact ⟨msgs, List.mem_append_left _ hmem, hp⟩

/-- On the proofs that `t` has read last nobody is elected who could propose, provided that the engine has a proof of its
own. -/
def Unelected (e : Engine) (cycle : UInt64) (root : Hash) (t : Trace) : Prop :=
  e.hasGossip = true → (e.node.uid.vrfProve X (makeAlpha cycle root.toList)).isSome = true →
    ∃ msgs, ⟨.getVRFProofs cycle, msgs⟩ ∈ t ∧ ∀ p, electedOn X e cycle root msgs = some p → e.inactive p.uid.id = true

theorem Elected.unelected (h : Elected X e cycle root t p) (hp : e.inactive p.uid.id = true) : Unelected X e cycle root t := by
  intro hg _
  obtain ⟨msgs, hmem, hon⟩ := h.read hg
  refine ⟨msgs, hmem, fun q hq => ?_⟩
  obtain rfl := Option.some.inj (hon.symm.trans hq)
  exact hp

/-- **An election only reads**, and elects by the proofs read last, whatever happened before. -/
theorem runs_elect {x : Exit (Except PrepareError Peer)} (h : Runs (elect X cycle root) e t x e') :
    e' = e ∧ (∀ ev ∈ t, ev.op.electing cycle) ∧
      ((Unelected X e cycle root t ∧ ∃ err, x = .done (.error err)) ∨
        ∃ p, x = .done (.ok p) ∧ Elected X e cycle root t p) := by
  cases hprove : e.node.uid.vrfProve X (makeAlpha cycle root.toList) with
  | none =>
    unfold elect at h
    rw [runs_get_bind] at h
    simp only [hprove] at h
    obtain ⟨rfl, rfl, rfl⟩ := runs_pure.1 h
    exact ⟨rfl, by simp, .inl ⟨fun _ hsome => by simp [hprove] at hsome, _, rfl⟩⟩
  | some localProof =>
    obtain ⟨rfl, hr, msgs, hread, rfl⟩ := runs_elect_outcome X hprove h
    refine ⟨rfl, hr, ?_⟩
    cases hs : selectProposer X e'.proposerPeers cycle root.toList (proofsFrom e'.node.uid.id localProof msgs) with
    | error err =>
      refine .inl ⟨fun hg _ => ⟨msgs, (hread hg).1, fun p hp => ?_⟩, _, rfl⟩
      have hlast : lastVRFProofs [⟨.getVRFProofs cycle, msgs⟩] = msgs := rfl
      simp [electedOn, electedBy, hprove, hlast, hs] at hp
    | ok r =>
      have hel : ∀ u, electedBy X e' cycle root (u ++ t) = some r.1 := by
        intro u
        cases hg : e'.hasGossip with
        | true => simp only [electedBy, hprove, (hread hg).2 u, hs]
        | false => exact electedBy_single X hg cycle root hprove msgs _ hs
      refine .inr ⟨r.1, rfl, hel, fun hg => ⟨msgs, (hread hg).1, ?_⟩⟩
      rw [← electedBy_eq_electedOn X ((hread hg).2 [])]
      exact hel []

end Gleipnir
