import Gleipnir.Consensus.Acceptance
import Gleipnir.Consensus.Agreement
import Gleipnir.Consensus.Atomicity
import Gleipnir.Consensus.Election
import Gleipnir.Consensus.Publications
import Gleipnir.Lib.Sites
import Gleipnir.Transport.Finals

/-!
# Validators on the network bus

A mesh is any number of engines, each on a `GossipBus` of its own. What an engine broadcasts reaches the buses of the others
at any time, in any order, any number of times or never; nobody else sends.

`mesh_commits_once`: such a mesh commits one block in total. A final block reaches the candidate slots of the others and not
their final slots, so the engine that commits the first block is the one that was elected for it. It is alone in the next
cycle, and an election needs the proofs of all validators.
-/

namespace Gleipnir

open Atomic Atomic.Body

variable (X : Prims) (C : Codec) {ι : Type}

/-! ## The mesh -/

namespace GossipBus

/-- A call of the engine, with what is broadcast. -/
def Serves (b : GossipBus) (o : Op) (r : o.Res) (b' : GossipBus) (ms : List Message) : Prop :=
  ∃ now wait, b.answer C now wait o = (r, b', ms)

/-- A message reaches a bus. -/
def deliver (m : Message) (b : GossipBus) : GossipBus :=
  match framed m.data with
  | none => b
  | some stream => b.receive C stream m.protocol

end GossipBus

abbrev GossipMesh (ι : Type) : Type := Sites ι Engine Call GossipBus Message Op Op.Res

/-- A run of a mesh. -/
abbrev MeshRun [DecidableEq ι] (w : GossipMesh ι) (τ : List (Transition (GossipMesh ι) (SiteMove ι Call Message Op Op.Res)))
    (w' : GossipMesh ι) : Prop :=
  Path (SiteStep (fun c e => c.prog X e) (GossipBus.Serves C) (GossipBus.deliver C)) w τ w'

/-- The nodes have just been built, each with its list of peers. -/
def GossipMesh.fresh (nodes : ι → Node) (peers : ι → List Peer) : GossipMesh ι :=
  Sites.idle (fun i => Engine.newWithPeers (nodes i) true (peers i)) GossipBus.new

/-- The engine of a node, as it is between its calls. -/
def GossipMesh.engine (w : GossipMesh ι) (i : ι) : Engine := (w.site i).thread.state

/-- What is decoded is what was encoded. -/
structure Codec.Faithful (C : Codec) : Prop where
  block : ∀ {b b'}, C.unmarshalBlock (C.marshalBlock b) = some b' → b' = b
  vrfProof : ∀ {m m'}, C.unmarshalVRFProof (C.marshalVRFProof m) = some m' → m' = m

/-! ## What an engine announces -/

section Announce

variable {X}

/-- The calls of an election after the node has published its proof. -/
def Op.gathering : Op → Bool
  | .getVRFProofs _ | .patience => true
  | _ => false

theorem gathering_collect (cycle : UInt64) (localProof : VRFProof) :
    Reads (fun ev => ev.op.gathering) False (collectVRFProofs cycle localProof) :=
  within_bind within_get fun _ => within_ite
    (within_bind (within_perform fun _ => rfl) fun _ => within_pure _) (within_pure _)

theorem gathering_gather (cycle : UInt64) (localProof : VRFProof) :
    Reads (fun ev => ev.op.gathering) False (gatherVRFProofs cycle localProof) := by
  refine within_bind (gathering_collect cycle localProof) fun _ => within_bind within_get fun _ => within_ite ?_ (within_pure _)
  refine within_bind (within_bind (within_perform fun _ => rfl) fun _ => ?_) fun _ => gathering_collect cycle localProof
  exact within_bind (within_poll (gathering_collect cycle localProof) _ _) fun _ => within_pure _

/-- The VRF proofs that are published are those of one node for one cycle. -/
def AnnouncesOwn (cycle : UInt64) (id : String) (t : Trace) : Prop :=
  ∀ msg, (⟨.publishVRFProof msg, ()⟩ : Event) ∈ t → msg.cycle = cycle ∧ msg.signerID = id

variable {cycle : UInt64} {id : String} {t t' : Trace} {e e' : Engine}

theorem announcesOwn_nil : AnnouncesOwn cycle id [] := fun _ hmem => by cases hmem

theorem AnnouncesOwn.append (h : AnnouncesOwn cycle id t) (h' : AnnouncesOwn cycle id t') : AnnouncesOwn cycle id (t ++ t') :=
  fun msg hmem => (List.mem_append.1 hmem).elim (h msg) (h' msg)

theorem announcesOwn_of_op {P : Op → Bool} (hP : ∀ msg, P (.publishVRFProof msg) = false) (ht : ∀ ev ∈ t, P ev.op = true) :
    AnnouncesOwn cycle id t := fun msg hmem => absurd hmem (not_mem_of_op ht (hP msg))

/-- The proof that an election publishes is the node's own, for the cycle. -/
theorem elect_announces {root : Hash} {x : Exit (Except PrepareError Peer)} (h : Runs (elect X cycle root) e t x e') :
    AnnouncesOwn cycle e.node.uid.id t := by
  unfold elect at h
  rw [runs_get_bind] at h
  split at h
  · obtain ⟨rfl, -⟩ := runs_pure.1 h
    exact announcesOwn_nil
  · next localProof _ =>
    have hannounce : ∀ {t₁ y e₁}, Runs (announceProof cycle localProof) e t₁ y e₁ → AnnouncesOwn cycle e.node.uid.id t₁ := by
      intro t₁ y e₁ h₁ msg hmem
      unfold announceProof at h₁
      rw [runs_get_bind] at h₁
      split at h₁
      · obtain ⟨r, rfl, -⟩ := runs_perform.1 h₁
        cases List.mem_singleton.1 hmem
        exact ⟨rfl, rfl⟩
      · obtain ⟨rfl, -⟩ := runs_pure.1 h₁
        cases hmem
    rcases runs_bind.1 h with ⟨t₁, _, e₁, t₂, rfl, h₁, h₂⟩ | ⟨-, h₁⟩
    · refine (hannounce h₁).append (announcesOwn_of_op (P := Op.gathering) (fun _ => rfl) ?_)
      refine (within_bind (gathering_gather cycle localProof) (fun _ => ?_) _ _ _ _ h₂).2.1
      split <;> exact within_pure _
    · exact hannounce h₁

theorem prepare_announces {root : Hash} {pend : List ProvenanceEntry} {cq : Bool} {q : Nat}
    {x : Exit (Except PrepareError PrepareResult)} (h : Runs (runPreparePhase X cycle root pend cq q) e t x e') :
    AnnouncesOwn cycle e.node.uid.id t := by
  unfold runPreparePhase at h
  rcases runs_bind.1 h with ⟨t₁, r, e₁, t₂, rfl, h₁, h₂⟩ | ⟨-, h₁⟩
  · refine (elect_announces h₁).append ?_
    -- nothing is announced once the proposer is known
    cases r with
    | error err =>
      obtain ⟨rfl, -⟩ := runs_pure.1 h₂
      exact announcesOwn_nil
    | ok p =>
      rw [runs_get_bind] at h₂
      split at h₂
      · obtain ⟨rfl, -⟩ := runs_pure.1 h₂
        exact announcesOwn_nil
      · rcases runs_bind.1 h₂ with ⟨t₃, y, e₂, t₄, rfl, h₃, h₄⟩ | ⟨-, h₃⟩
        · refine .append (announcesOwn_of_op (fun _ => rfl) (obtained_dealing X (runs_obtainCandidate X h₃))) ?_
          cases y with
          | error err =>
            obtain ⟨rfl, -⟩ := runs_pure.1 h₄
            exact announcesOwn_nil
          | ok block =>
            refine announcesOwn_of_op (P := Op.counting) (fun _ => rfl) ?_
            exact (within_bind (reads_tally X cycle _ block p.uid.id cq q) (fun _ => within_pure _) _ _ _ _ h₄).2.1
        · exact announcesOwn_of_op (fun _ => rfl) (obtained_dealing X (runs_obtainCandidate X h₃))
  · exact elect_announces h₁

/-- The proof that a cycle publishes is the node's own, for its next block. -/
theorem cycle_announces {u v : Trace} {x : Exit Unit} {msg : VRFProofMsg}
    (h : Cycled X e (u ++ ⟨.publishVRFProof msg, ()⟩ :: v) x e') :
    msg.cycle = e.nextCycle ∧ msg.signerID = e.node.uid.id := by
  obtain ⟨pool, w, w', y, e₂, -, hp⟩ := cycle_event X h rfl
  have hprepares : ∀ {cq e₁ t y e₂}, e₁.node = e.node → e.Prepares X pool cq e₁ t y e₂ →
      AnnouncesOwn e.nextCycle e.node.uid.id t := by
    intro cq e₁ t y e₂ hnode hrun
    rw [← hnode]
    exact prepare_announces hrun
  have hready : (e.ready X pool).node = e.node := Engine.ready_node X e pool
  have hprepared : ∀ {t y e₁}, e.Prepares X pool false (e.ready X pool) t y e₁ → e₁.node = e.node := by
    intro t y e₁ hrun
    obtain ⟨st, he₁⟩ := prepare_frame X hrun
    rw [he₁, hready]
  suffices hall : AnnouncesOwn e.nextCycle e.node.uid.id (w ++ ⟨.publishVRFProof msg, ()⟩ :: w') from
    hall msg (List.mem_append_right _ List.mem_cons_self)
  generalize w ++ ⟨.publishVRFProof msg, ()⟩ :: w' = t at hp
  cases runs_phases X hp with
  | first h₁ hs => exact hprepares hready h₁
  | second h₁ h₂ hs => exact (hprepares hready h₁).append (hprepares (hprepared h₁) h₂)
  | third h₁ h₂ h₃ =>
    refine (hprepares hready h₁).append ((hprepares (hprepared h₁) h₂).append ?_)
    cases h₃ with
    | failed err hfin => exact announcesOwn_of_op (fun _ => rfl) hfin
    | followed hq hl hg hfin hread hcheck => exact announcesOwn_of_op (fun _ => rfl) hfin
    | led hq hl hled =>
      rw [hled]
      split
      · intro msg hmem
        cases List.mem_singleton.1 hmem
      · exact announcesOwn_nil

end Announce

/-! ## The final block of a cycle -/

section Final

variable {X}

/-- A quorum is reported when enough signatures are counted. -/
theorem tally_quorum {cycle : UInt64} {am : Bool} {leaderID : String} {block : Block} {cq : Bool} {q : Nat} {e e' : Engine}
    {t : Trace} {pr : PrepareResult} (h : Runs (tally X cycle am leaderID block cq q) e t (.done pr) e')
    (hq : pr.quorumReached = true) : q ≤ pr.prepareSigs.entries.length := by
  unfold tally at h
  obtain ⟨t₁, first, e₁, t₂, rfl, -, h₂⟩ := runs_bind_done.1 h
  obtain ⟨t₃, valid, e₂, t₄, rfl, -, h₄⟩ := runs_bind_done.1 h₂
  rw [runs_get_bind] at h₄
  obtain ⟨-, hx, -⟩ := runs_pure.1 h₄
  cases hx
  simpa using (Bool.and_eq_true_iff.1 hq).2

/-- **The final block of a leader is signed**, if any quorum is required. -/
theorem leading_signed {e : Engine} {u : Trace} {block : Block} (l : Leading X e u block) (hpeers : e.peers ≠ []) :
    block.prepareSigs ≠ [] := by
  have hchecked := l.checked
  obtain ⟨st₁, he₁⟩ := prepare_frame X l.prepared
  obtain ⟨p, _, _, _, -, -, hleader, -, htally⟩ := prepare_ok X hchecked
  have hme : p.uid.id = l.e₁.node.uid.id := by rw [← hleader, l.leader, he₁, Engine.ready_node]
  rw [beq_iff_eq.2 hme] at htally
  obtain ⟨hbitmap, sig, rest, msgs, -, hsigs, -⟩ := runs_tally_certificate htally
  have hpos : 0 < (e.ready X l.pool).requiredQuorum := by
    have hactive : 0 < e.activeValidators := by
      have := List.length_pos_iff.2 hpeers
      unfold Engine.activeValidators
      split
      · assumption
      · omega
    unfold Engine.requiredQuorum quorumRequired
    rw [ready_activeValidators]
    split
    · exact Nat.one_pos
    · omega
  have hcount := tally_quorum htally l.reached
  -- some counted signature is that of a peer
  obtain ⟨s, hs⟩ := List.exists_mem_of_length_pos (lt_of_lt_of_le hpos hcount)
  have hlookup : l.pr₂.prepareSigs.lookup s.1 = some s.2 := AList.mem_lookup_iff.2 hs
  obtain ⟨-, p', hfind, -⟩ := validSigs_active (hsigs ▸ hlookup)
  have hid : p'.uid.id = s.1 := by simpa using List.find?_some hfind
  have hof : l.pr₂.prepareSigs.of p'.uid.rootID = some s.2 := by
    show l.pr₂.prepareSigs.lookup p'.uid.id = some s.2
    rw [hid, hlookup]
  have hlisted : p'.uid.rootID ∈ l.e₂.order := List.mem_map.2 ⟨p', List.mem_of_find?_eq_some hfind, rfl⟩
  have hmem : s.2 ∈ l.e₂.compactSigs l.pr₂ := by
    rw [compactSigs_eq hbitmap]
    exact List.mem_filterMap.2 ⟨_, hlisted, hof⟩
  rw [l.block_eq]
  exact List.ne_nil_of_mem hmem

end Final

/-! ## Elections -/

/-- The input of the VRF for the first block. -/
def firstAlpha : Bytes := makeAlpha 0 (SparseMerkleTree.new defaultConfig.smtDepth).root.toList

/-- The identity of the validator with the smallest VRF output for the first block. -/
def FirstLeader (validators : List Peer) (id : String) : Prop := ∃ p, Smallest X firstAlpha validators p ∧ p.uid.id = id

/-- Validators of which there are two, whose VRF keys have one output each for the first block, all of them different. -/
structure Electorate (validators : List Peer) : Prop where
  one : ∀ p ∈ validators, ∀ g g', VRFOutput X firstAlpha p g → VRFOutput X firstAlpha p g' → g = g'
  apart : ∀ p ∈ validators, ∀ q ∈ validators, ∀ g, VRFOutput X firstAlpha p g → VRFOutput X firstAlpha q g → p = q
  two : ∃ p ∈ validators, ∃ q ∈ validators, p.uid.id ≠ q.uid.id

section Elections

variable {X} {validators : List Peer}

theorem FirstLeader.unique {id id' : String} (h : FirstLeader X validators id) (h' : FirstLeader X validators id') : id = id' := by
  obtain ⟨p, hp, rfl⟩ := h
  obtain ⟨p', hp', rfl⟩ := h'
  rw [hp.unique hp']

/-- A proof in the map is the node's own or came in a message. -/
theorem signer_of_proofsFrom {me id : String} {localProof : VRFProof} {msgs : List VRFProofMsg} {π : Option VRFProof}
    (h : (proofsFrom me localProof msgs).lookup id = some π) : id = me ∨ ∃ m ∈ msgs, m.signerID = id := by
  by_cases hme : id = me
  · exact .inl hme
  · right
    rw [proofsFrom, addProof_eq, FirstWins.lookup_foldl_offer, FirstWins.lookup_singleton_ne hme,
      Option.none_or] at h
    obtain ⟨m, hm, hπ⟩ := List.exists_of_findSome?_eq_some h
    refine ⟨m, hm, ?_⟩
    by_contra hne
    simp [hne] at hπ

/-- The proofs read last were read. -/
theorem mem_lastVRFProofs {t : Trace} {m : VRFProofMsg} (h : m ∈ lastVRFProofs t) :
    ∃ c msgs, (⟨.getVRFProofs c, msgs⟩ : Event) ∈ t ∧ m ∈ msgs := by
  induction t using List.reverseRecOn with
  | nil => cases h
  | append_singleton t ev ih =>
    rcases MemoryBus.lastVRFProofs_snoc t ev with ⟨c, msgs, rfl, hlast⟩ | hlast
    · exact ⟨c, msgs, List.mem_append_right _ List.mem_cons_self, hlast ▸ h⟩
    · obtain ⟨c, msgs, hev, hm⟩ := ih (hlast ▸ h)
      exact ⟨c, msgs, List.mem_append_left _ hev, hm⟩

end Elections

/-! ## What a node guarantees -/

/-- An engine of the mesh between its calls: it has the tree it was built with, or one block and is the first leader. -/
structure OneBlock (validators : List Peer) (node : Node) (e : Engine) : Prop where
  same : e.node = node
  gossip : e.hasGossip = true
  peers : e.peers.Perm validators
  rooted : e.blocks = [] → e.st = SparseMerkleTree.new defaultConfig.smtDepth
  once : e.blocks ≠ [] → e.blocks.length = 1 ∧ FirstLeader X validators node.uid.id

/-- The bus of a node: candidates are signed, only the first leader has published final blocks, and only it announces itself
for a later block. -/
structure Guarded (validators : List Peer) (node : Node) (b : GossipBus) : Prop where
  signed : ∀ n block, b.proposals n = some block → block.prepareSigs ≠ []
  finals : ∀ n block, b.finals n = some block → FirstLeader X validators node.uid.id
  later : ∀ n, n ≠ 0 → ∀ m ∈ b.vrfProofs n, FirstLeader X validators m.signerID

/-- The same of a message. -/
structure Message.Honest (validators : List Peer) (m : Message) : Prop where
  signed : m.protocol = .proposals → ∀ block, C.unmarshalBlock m.data = some block → block.prepareSigs ≠ []
  later : m.protocol = .vrfProofs → ∀ proof, C.unmarshalVRFProof m.data = some proof → proof.cycle ≠ 0 →
    FirstLeader X validators proof.signerID

section Guarantee

variable {X C} {validators : List Peer} {node : Node} {e e' : Engine} {b b' : GossipBus}

/-- Entries and votes are free. -/
theorem Message.Honest.of_other {m : Message} (hp : m.protocol ≠ .proposals) (hp' : m.protocol ≠ .vrfProofs) :
    m.Honest X C validators := ⟨fun h => absurd h hp, fun h => absurd h hp'⟩

theorem guarded_new : Guarded X validators node GossipBus.new :=
  ⟨fun _ _ h => (by cases h), fun _ _ h => (by cases h), fun _ _ _ h => (by cases h)⟩

/-- What is read from a stream is what was framed. -/
theorem eq_of_readFramed {data stream read : Bytes} (h : framed data = some stream) (hread : readFramed stream = some read) :
    read = data := by
  by_cases hdata : data = []
  · -- an empty message is not read at all
    subst hdata
    obtain rfl : be32 0 = stream := by simpa [framed] using h
    have hnone : readFramed (be32 0) = none := by simp [readFramed, be32, bigEndian]
    rw [hnone] at hread
    cases hread
  · exact Option.some.inj (hread.symm.trans (readFramed_framed hdata h))

theorem decoded {α : Type} {f : Bytes → Option α} {data stream : Bytes} {a : α} (h : framed data = some stream)
    (ha : (readFramed stream).bind f = some a) : f data = some a := by
  obtain ⟨read, hread, ha⟩ := Option.bind_eq_some_iff.1 ha
  rwa [eq_of_readFramed h hread] at ha

/-- A candidate comes into its slot. -/
theorem Guarded.candidate (hb : Guarded X validators node b) {block : Block} (hsigned : block.prepareSigs ≠ []) :
    Guarded X validators node { b with proposals := Function.update b.proposals block.index (some block) } := by
  refine ⟨fun n held hheld => ?_, hb.finals, hb.later⟩
  by_cases hn : n = block.index
  · subst hn
    simp only [Function.update_self, Option.some.injEq] at hheld
    rwa [← hheld]
  · simp only [Function.update_of_ne hn] at hheld
    exact hb.signed n held hheld

/-- A VRF proof is kept. -/
theorem Guarded.announcement (hb : Guarded X validators node b) {proof : VRFProofMsg}
    (hlater : proof.cycle ≠ 0 → FirstLeader X validators proof.signerID) : Guarded X validators node (b.keepVRFProof proof) := by
  refine ⟨hb.signed, hb.finals, fun n hn m hm => ?_⟩
  by_cases hc : n = proof.cycle
  · subst hc
    simp only [GossipBus.keepVRFProof, Function.update_self, List.mem_append, List.mem_singleton] at hm
    rcases hm with hm | rfl
    · exact hb.later _ hn m hm
    · exact hlater hn
  · simp only [GossipBus.keepVRFProof, Function.update_of_ne hc] at hm
    exact hb.later n hn m hm

/-- **An honest message** keeps the bus guarded. -/
theorem guarded_deliver (hb : Guarded X validators node b) {m : Message} (hm : m.Honest X C validators) :
    Guarded X validators node (b.deliver C m) := by
  unfold GossipBus.deliver
  cases hframe : framed m.data with
  | none => exact hb
  | some stream =>
    dsimp only
    cases hp : m.protocol with
    | entries =>
      simp only [GossipBus.receive, GossipBus.handleEntriesStream]
      split
      · exact hb
      · exact ⟨hb.signed, hb.finals, hb.later⟩
    | proposals =>
      simp only [GossipBus.receive, GossipBus.handleProposalsStream]
      split
      · exact hb
      · next hblock => exact hb.candidate (hm.signed hp _ (decoded hframe hblock))
    | sigs =>
      simp only [GossipBus.receive, GossipBus.handleSigsStream]
      split
      · exact hb
      · exact ⟨hb.signed, hb.finals, hb.later⟩
    | vrfProofs =>
      simp only [GossipBus.receive, GossipBus.handleVRFProofsStream]
      split
      · exact hb
      · next hproof =>
        split
        · exact hb
        · exact hb.announcement (hm.later hp _ (decoded hframe hproof))

/-- **A call** keeps the bus guarded and sends honest messages, if the node proposes signed candidates, publishes signed final
blocks as the first leader, and announces itself for later blocks as the first leader. -/
theorem guarded_serves (hC : C.Faithful) (hb : Guarded X validators node b) {o : Op} {r : o.Res} {ms : List Message}
    (hpropose : ∀ block id, o = .propose block id → block.prepareSigs ≠ [])
    (hfinal : ∀ block id, o = .publishFinal block id → block.prepareSigs ≠ [] ∧ FirstLeader X validators node.uid.id)
    (hannounce : ∀ msg, o = .publishVRFProof msg → msg.cycle ≠ 0 → FirstLeader X validators msg.signerID)
    (hs : b.Serves C o r b' ms) : Guarded X validators node b' ∧ ∀ m ∈ ms, m.Honest X C validators := by
  obtain ⟨now, wait, hs⟩ := hs
  have hblock : ∀ {block : Block}, block.prepareSigs ≠ [] →
      ∀ m ∈ [(⟨.proposals, C.marshalBlock block⟩ : Message)], m.Honest X C validators := by
    intro block hsigned m hm
    obtain rfl := List.mem_singleton.1 hm
    refine ⟨fun _ block' hdecode => ?_, fun hp => absurd hp (by simp)⟩
    rwa [hC.block hdecode]
  cases o with
  | propose block id =>
    simp only [GossipBus.answer, GossipBus.propose] at hs
    split at hs
    · cases hs
      exact ⟨hb, by simp⟩
    · cases hs
      exact ⟨hb.candidate (hpropose _ _ rfl), hblock (hpropose _ _ rfl)⟩
  | publishFinal block id =>
    cases hs
    obtain ⟨hsigned, hleader⟩ := hfinal _ _ rfl
    exact ⟨⟨hb.signed, fun _ _ _ => hleader, hb.later⟩, hblock hsigned⟩
  | publishVRFProof proof =>
    simp only [GossipBus.answer, GossipBus.publishVRFProof] at hs
    split at hs
    · cases hs
      exact ⟨hb, by simp⟩
    · cases hs
      refine ⟨hb.announcement (hannounce _ rfl), fun m hm => ?_⟩
      obtain rfl := List.mem_singleton.1 hm
      refine ⟨fun hp => absurd hp (by simp), fun _ proof' hdecode => ?_⟩
      rw [hC.vrfProof hdecode]
      exact hannounce _ rfl
  | publish entry =>
    cases hs
    refine ⟨⟨hb.signed, hb.finals, hb.later⟩, fun m hm => ?_⟩
    obtain rfl := List.mem_singleton.1 hm
    exact .of_other (by simp) (by simp)
  | publishSig sig =>
    cases hs
    refine ⟨⟨hb.signed, hb.finals, hb.later⟩, fun m hm => ?_⟩
    obtain rfl := List.mem_singleton.1 hm
    exact .of_other (by simp) (by simp)
  | _ =>
    cases hs
    exact ⟨⟨hb.signed, hb.finals, hb.later⟩, by simp⟩

end Guarantee

/-! ## One engine of the mesh -/

section OneEngine

variable {X C} {validators : List Peer} {nodes : ι → Node} {i : ι} {e e' : Engine} {b₀ b : GossipBus} {past : Trace}

variable (X C validators nodes) in
/-- The calls of the engine of `i` on its bus, while honest messages come in. -/
abbrev MeshServed (i : ι) : GossipBus → Trace → GossipBus → Prop :=
  ServedAt (GossipBus.Serves C) (GossipBus.deliver C) (Message.Honest X C validators)
    (fun i => Guarded X validators (nodes i)) i

variable {ev : Event} {n : UInt64} {block : Block} {t : Trace} {p : Peer} {c : Call}

/-- What a call returned, a guarded bus has answered. -/
theorem served_answer (h : MeshServed X C validators nodes i b₀ past b) (hev : ev ∈ past) :
    ∃ b₁ now wait, Guarded X validators (nodes i) b₁ ∧ (b₁.answer C now wait ev.op).1 = ev.res := by
  obtain ⟨u, v, rfl⟩ := List.append_of_mem hev
  obtain ⟨b₁, b₂, -, ⟨hb, ms, now, wait, hs⟩, -⟩ := h.at_call
  exact ⟨b₁, now, wait, hb, congrArg Prod.fst hs⟩

theorem served_candidate (h : MeshServed X C validators nodes i b₀ past b) (hread : ⟨.getProposed n, some block⟩ ∈ past) :
    block.prepareSigs ≠ [] := by
  obtain ⟨b₁, now, wait, hb, hres⟩ := served_answer h hread
  exact hb.signed n block hres

theorem served_final (h : MeshServed X C validators nodes i b₀ past b) (hread : ⟨.getFinal n, some block⟩ ∈ past) :
    FirstLeader X validators (nodes i).uid.id := by
  obtain ⟨b₁, now, wait, hb, hres⟩ := served_answer h hread
  exact hb.finals n block hres

theorem served_later (h : MeshServed X C validators nodes i b₀ past b) (hn : n ≠ 0) {msgs : List VRFProofMsg}
    (hread : ⟨.getVRFProofs n, msgs⟩ ∈ past) : ∀ m ∈ msgs, FirstLeader X validators m.signerID := by
  obtain ⟨b₁, now, wait, hb, hres⟩ := served_answer h hread
  have hmsgs : b₁.vrfProofs n = msgs := hres
  rw [← hmsgs]
  exact hb.later n hn

variable {node : Node}

/-- An election is a selection among the peers, from the node's own proof and those read last. -/
theorem electedBy_some {cycle : UInt64} {root : Hash} (h : electedBy X e cycle root t = some p) :
    ∃ localProof π, selectProposer X e.proposerPeers cycle root.toList
      (proofsFrom e.node.uid.id localProof (lastVRFProofs t)) = .ok (p, π) := by
  unfold electedBy at h
  split at h
  · cases h
  · next localProof _ =>
    split at h
    · cases h
    · next hs =>
      cases h
      exact ⟨localProof, _, hs⟩

theorem nextCycle_first (hb : e.blocks = []) : e.nextCycle = 0 := by
  simp [Engine.nextCycle, hb]

theorem OneBlock.nextCycle_ne (he : OneBlock X validators node e) (hb : e.blocks ≠ []) : e.nextCycle ≠ 0 := by
  simp [Engine.nextCycle, (he.once hb).1]

/-- The first election elects the first leader. -/
theorem elected_first (hv : Electorate X validators) (he : OneBlock X validators node e) (hb : e.blocks = [])
    (hel : electedBy X e e.nextCycle e.st.root t = some p) : FirstLeader X validators p.uid.id := by
  obtain ⟨localProof, π, hsel⟩ := electedBy_some hel
  have hpeers : e.proposerPeers = e.peers := by rw [Engine.proposerPeers, if_pos he.gossip]
  rw [nextCycle_first hb, he.rooted hb, hpeers] at hsel
  have hsmall : Smallest X firstAlpha e.peers p := by
    refine smallest_of_selectProposerVRF (fun q hq => hv.one q (he.peers.mem_iff.1 hq)) (fun q hq q' hq' => ?_) hsel
    exact hv.apart q (he.peers.mem_iff.1 hq) q' (he.peers.mem_iff.1 hq')
  exact ⟨p, hsmall.perm he.peers, rfl⟩

/-- With a block, an engine is alone: the proofs of the others do not come. -/
theorem not_elected (hv : Electorate X validators) (he : OneBlock X validators node e) (hb : e.blocks ≠ [])
    (hread : ∀ m ∈ lastVRFProofs t, FirstLeader X validators m.signerID) : electedBy X e e.nextCycle e.st.root t ≠ some p := by
  intro hel
  obtain ⟨localProof, π, hsel⟩ := electedBy_some hel
  obtain ⟨-, hleader⟩ := he.once hb
  have hall : ∀ q ∈ validators, FirstLeader X validators q.uid.id := by
    intro q hq
    have hq' : q ∈ e.proposerPeers := by
      rw [Engine.proposerPeers, if_pos he.gossip]
      exact he.peers.mem_iff.2 hq
    obtain ⟨π', hπ'⟩ := lookup_of_selectProposer X hsel hq'
    rcases signer_of_proofsFrom hπ' with hme | ⟨m, hm, hid⟩
    · rwa [hme, he.same]
    · rw [← hid]
      exact hread m hm
  obtain ⟨q, hq, q', hq', hne⟩ := hv.two
  exact hne ((hall q hq).unique (hall q' hq'))

/-- **A PREPARE phase that succeeds** is one for the first block, and its leader is the first leader. -/
theorem prepare_leader (hv : Electorate X validators) (he : OneBlock X validators node e) {pool : List ProvenanceEntry}
    {cq : Bool} {e₁ e₂ : Engine} {st : SparseMerkleTree} {pr : PrepareResult} (hframe : e₁ = { e.ready X pool with st := st })
    (hread : ∀ msgs, ⟨.getVRFProofs e.nextCycle, msgs⟩ ∈ t → e.nextCycle ≠ 0 → ∀ m ∈ msgs, FirstLeader X validators m.signerID)
    (h : e.Prepares X pool cq e₁ t (.done (.ok pr)) e₂) : e.blocks = [] ∧ FirstLeader X validators pr.leaderID := by
  obtain ⟨p, t₁, t₂, t₃, -, hel, hleader, -⟩ := prepare_ok X h
  have hel' : electedBy X e e.nextCycle e.st.root t = some p := by
    have hsame : electedBy X e₁ e.nextCycle e.st.root t = electedBy X e e.nextCycle e.st.root t := by
      refine electedBy_congr X ?_ ?_ ?_ _ _ _
      · rw [hframe, Engine.ready_node]
      · rw [hframe, Engine.ready_hasGossip]
      · rw [hframe, Engine.ready_peers]
    rw [← hsame]
    exact hel []
  have hb : e.blocks = [] := by
    by_contra hb
    refine not_elected hv he hb (fun m hm => ?_) hel'
    obtain ⟨c, msgs, hev, hmem⟩ := mem_lastVRFProofs hm
    rcases prepare_calls X h _ hev with hop | hop
    · have hc : c = e.nextCycle := eq_of_beq hop
      subst hc
      exact hread msgs hev (he.nextCycle_ne hb) m hmem
    · cases hop
  exact ⟨hb, by rw [hleader]; exact elected_first hv he hb hel'⟩

/-- **The calls of an engine** keep its bus guarded and send honest messages. -/
theorem oneBlock_serve (hv : Electorate X validators) (hC : C.Faithful) (he : OneBlock X validators (nodes i) e)
    (hserved : MeshServed X C validators nodes i b₀ past b) (hb : Guarded X validators (nodes i) b) {v : Trace} {b' : GossipBus}
    {ms : List Message} (hrun : Run (c.prog X e) (past ++ ev :: v) e') (hs : b.Serves C ev.op ev.res b' ms) :
    Guarded X validators (nodes i) b' ∧ ∀ m ∈ ms, m.Honest X C validators := by
  obtain ⟨o, r⟩ := ev
  refine guarded_serves hC hb (fun block id ho => ?_) (fun block id ho => ?_) (fun msg ho hcycle => ?_) hs
  · change o = _ at ho
    subst ho
    obtain ⟨x, hcycled⟩ := cycled_of_call hrun rfl
    exact (cycle_proposal X hcycled he.gossip).signed
  · change o = _ at ho
    subst ho
    obtain ⟨x, hcycled⟩ := cycled_of_call hrun rfl
    obtain ⟨l⟩ := cycle_leads X hcycled
    obtain ⟨p, hp, -⟩ := hv.two
    refine ⟨leading_signed l (List.ne_nil_of_mem (he.peers.mem_iff.2 hp)), ?_⟩
    -- the quorum check has elected the node itself
    obtain ⟨st, hframe⟩ := prepare_frame X l.prepared
    obtain ⟨-, hleader⟩ := prepare_leader hv he hframe
      (fun msgs hmem hn => served_later hserved hn (by rw [l.trace_eq]; simp [hmem])) l.checked
    rwa [l.leader, he.same] at hleader
  · change o = _ at ho
    subst ho
    obtain ⟨x, hcycled⟩ := cycled_of_call hrun rfl
    obtain ⟨hc, hid⟩ := cycle_announces hcycled
    have hblocks : e.blocks ≠ [] := fun hnil => hcycle (by rw [hc, nextCycle_first hnil])
    rw [hid, he.same]
    exact (he.once hblocks).2

/-- No cycle panics, so those that append nothing restore the tree. -/
theorem served_restores (hserved : MeshServed X C validators nodes i b₀ past b) (hrun : Run (c.prog X e) past e')
    (hblocks : e'.blocks = e.blocks) : e'.st = e.st := by
  obtain ⟨⟨x, s⟩, rfl, hbody⟩ := run_map.1 hrun
  by_cases hc : c = .runCycle
  · subst hc
    refine cycle_restores (runs_cycleBody X hbody) hblocks ?_
    rintro rfl
    obtain ⟨block, hread, hsigs⟩ := unsigned_of_panics X hbody
    exact served_candidate hserved hread hsigs
  · exact (call_within X hc _ _ _ _ hbody).1.st

/-- **A call of an engine** leaves it with its first tree, or with the one block that it has led. -/
theorem oneBlock_finish (hv : Electorate X validators) (he : OneBlock X validators (nodes i) e)
    (hserved : MeshServed X C validators nodes i b₀ past b) (hrun : Run (c.prog X e) past e') :
    OneBlock X validators (nodes i) e' := by
  have hstep : EngineStep X e ⟨c, past⟩ e' := hrun
  obtain ⟨hnode, hgossip, hpeers, -⟩ := sameEngine_step X hstep
  refine ⟨hnode.trans he.same, hgossip.trans he.gossip, hpeers ▸ he.peers, fun hnil => ?_, fun hne => ?_⟩
  · rcases step_blocks X hstep with hsame | ⟨-, ⟨cm⟩⟩
    · rw [served_restores hserved hrun hsame]
      exact he.rooted (hsame ▸ hnil)
    · rw [cm.blocks_eq] at hnil
      simp at hnil
  · rcases step_blocks X hstep with hsame | ⟨-, ⟨cm⟩⟩
    · rw [hsame] at hne ⊢
      exact he.once hne
    · obtain ⟨st, hframe⟩ := prepare_frame X cm.prepared
      obtain ⟨hnil, hleader⟩ := prepare_leader hv he hframe
        (fun msgs hmem hn => served_later hserved hn (cm.mem_trace (.inr (.inl hmem)))) cm.checked
      refine ⟨by rw [cm.blocks_eq, hnil]; rfl, ?_⟩
      obtain ⟨-, ⟨hl, -⟩ | ⟨-, hread⟩⟩ := finalised_ok X cm.finalised
      · obtain ⟨st₂, hframe₂⟩ := cm.frame
        rwa [hl, hframe₂, Engine.ready_node, he.same] at hleader
      · -- a final block that the node reads is one that it has published
        exact served_final hserved (cm.mem_trace (.inr (.inr hread)))

theorem mesh_guarantees (hv : Electorate X validators) (hC : C.Faithful) (nodes : ι → Node) :
    Guarantees (fun (c : Call) e => c.prog X e) (GossipBus.Serves C) (GossipBus.deliver C) (Message.Honest X C validators)
      (fun i => Guarded X validators (nodes i)) (fun i => OneBlock X validators (nodes i)) where
  deliver := fun hb hm => guarded_deliver hb hm
  serve := fun he hserved hb hrun hs => oneBlock_serve hv hC he hserved hb hrun hs
  finish := fun he hserved _ hrun => oneBlock_finish hv he hserved hrun

end OneEngine

/-! ## The mesh -/

/-- **A mesh commits once.** The validators have different VRF outputs for the first block, every engine has the same
validators as peers in some order, and what is decoded is what was encoded. Whatever calls are made, however they interleave
and whichever messages arrive, an engine has at most one block, and engines that have one are those of the first leader. -/
theorem mesh_commits_once [DecidableEq ι] {validators : List Peer} (hv : Electorate X validators) (hC : C.Faithful)
    {nodes : ι → Node} {peers : ι → List Peer} (hpeers : ∀ i, (peers i).Perm validators) {w : GossipMesh ι}
    {τ : List (Transition (GossipMesh ι) (SiteMove ι Call Message Op Op.Res))}
    (h : MeshRun X C (GossipMesh.fresh nodes peers) τ w) :
    (∀ i, (w.engine i).blocks.length ≤ 1 ∧ ((w.engine i).blocks ≠ [] → FirstLeader X validators (nodes i).uid.id)) ∧
      ∀ i j, (w.engine i).blocks ≠ [] → (w.engine j).blocks ≠ [] → (nodes i).uid.id = (nodes j).uid.id := by
  have hfresh : (GossipMesh.fresh nodes peers).Sound (fun c e => c.prog X e) (GossipBus.Serves C) (GossipBus.deliver C)
      (Message.Honest X C validators) (fun i => Guarded X validators (nodes i)) fun i => OneBlock X validators (nodes i) :=
    ⟨fun m hm => absurd hm List.not_mem_nil, fun i => guarded_new,
      fun i => ⟨rfl, rfl, hpeers i, fun _ => rfl, fun hne => absurd rfl hne⟩⟩
  have hone : ∀ i, OneBlock X validators (nodes i) (w.engine i) :=
    fun i => (guaranteed_run (mesh_guarantees hv hC nodes) h hfresh).state i
  have hleader : ∀ i, (w.engine i).blocks ≠ [] → FirstLeader X validators (nodes i).uid.id :=
    fun i hne => ((hone i).once hne).2
  refine ⟨fun i => ⟨?_, hleader i⟩, fun i j hi hj => (hleader i hi).unique (hleader j hj)⟩
  by_cases hne : (w.engine i).blocks = []
  · rw [hne]
    exact Nat.zero_le 1
  · exact ((hone i).once hne).1.le

namespace Sample

/-- The candidate of the first validator for the first block. -/
def meshCandidate : Block := (two 1).newCandidate prims 0 (peer 1) [entry 9] 2 1

/-- The vote of the second validator for it. -/
def meshVote : BlockSig := (two 2).vote prims 0 meshCandidate.blockHash

/-- The VRF proof of a validator for the first block. -/
def firstMsg (k : UInt8) : VRFProofMsg := vrfMsg k 0 (List.replicate 32 0)

/-- Encodings of these; everything else is unreadable. -/
def tokens : Codec where
  marshalEntry := fun _ => [0]
  unmarshalEntry := fun _ => none
  marshalBlock := fun block => if sameFields block meshCandidate then [1] else [0]
  unmarshalBlock := fun data => if data = [1] then some meshCandidate else none
  marshalSig := fun sig => if sig = meshVote then [1] else [0]
  unmarshalSig := fun data => if data = [1] then some meshVote else none
  marshalVRFProof := fun msg => if msg = firstMsg 1 then [1] else if msg = firstMsg 2 then [2] else [0]
  unmarshalVRFProof := fun data => if data = [1] then some (firstMsg 1) else if data = [2] then some (firstMsg 2) else none

theorem faithful_tokens : tokens.Faithful := by
  refine ⟨fun {b b'} h => ?_, fun {m m'} h => ?_⟩
  · by_cases hb : sameFields b meshCandidate
    · simp only [tokens, if_pos hb, if_true, Option.some.injEq] at h
      rw [eq_of_sameFields hb, h]
    · simp [tokens, hb] at h
  · by_cases h₁ : m = firstMsg 1
    · simp only [tokens, if_pos h₁, if_true, Option.some.injEq] at h
      rw [h₁, h]
    · by_cases h₂ : m = firstMsg 2
      · simp only [tokens, if_neg h₁, if_pos h₂] at h
        simp only [List.cons.injEq, and_true, show ¬ (2 : UInt8) = 1 by decide, if_false, if_true, Option.some.injEq] at h
        rw [h₂, h]
      · simp [tokens, h₁, h₂] at h

/-- Two sites that are idle. -/
def resting (es : Bool → Engine × GossipBus) (ms : List Message) : GossipMesh Bool :=
  ⟨fun i => ⟨.idle (es i).1, (es i).2⟩, ms⟩

/-- Serve a call at a site at the time `1`, where no wait lasts. -/
def serveAt (es : Bool → Engine × GossipBus) (ms : List Message) (i : Bool) (c : Call) :
    Engine × Trace × GossipBus × List Message :=
  serve (sending fun b o => b.answer tokens 1 ⟨0, false⟩ o) (c.prog prims (es i).1) ((es i).2, ms)

/-- A call at a site, after which the messages that it sent are delivered to the other one. -/
def relayed (es : Bool → Engine × GossipBus) (ms : List Message) (i : Bool) (c : Call) :
    (Bool → Engine × GossipBus) × List Message :=
  let x := serveAt es ms i c
  (fun j => if j = i then (x.1, x.2.2.1)
    else ((es j).1, (x.2.2.2.drop ms.length).foldl (fun b m => b.deliver tokens m) (es j).2), x.2.2.2)

theorem run_relayed (es : Bool → Engine × GossipBus) (ms : List Message) (i : Bool) (c : Call) :
    ∃ τ, MeshRun prims tokens (resting es ms) τ (resting (relayed es ms i c).1 (relayed es ms i c).2) := by
  have hcall : ∃ τ, MeshRun prims tokens (resting es ms) τ ⟨Function.update (resting es ms).site i
      ⟨.idle (serveAt es ms i c).1, (serveAt es ms i c).2.2.1⟩, (serveAt es ms i c).2.2.2⟩ :=
    path_site_serve (fun b o => b.answer tokens 1 ⟨0, false⟩ o) (GossipBus.deliver tokens)
      (fun b o => ⟨1, ⟨0, false⟩, rfl⟩) c rfl
  obtain ⟨τ₁, h₁⟩ := hcall
  have hdeliver : ∃ τ, MeshRun prims tokens _ τ _ := path_deliveries (GossipBus.deliver tokens) (!i)
    ((serveAt es ms i c).2.2.2.drop ms.length) (w := ⟨Function.update (resting es ms).site i
      ⟨.idle (serveAt es ms i c).1, (serveAt es ms i c).2.2.1⟩, (serveAt es ms i c).2.2.2⟩) fun m hm => List.mem_of_mem_drop hm
  obtain ⟨τ₂, h₂⟩ := hdeliver
  refine ⟨τ₁ ++ τ₂, ?_⟩
  convert h₁.append h₂ using 1
  have hne : (!i) ≠ i := Bool.not_ne_self i
  simp only [resting, relayed, Function.update_of_ne hne]
  congr 1
  funext j
  by_cases hj : j = i
  · subst hj
    simp
  · obtain rfl : j = !i := Bool.eq_not_of_ne hj
    simp [hne]

/-- Calls at the two sites, with the messages of each. -/
def relays : List (Bool × Call) → (Bool → Engine × GossipBus) → List Message → (Bool → Engine × GossipBus) × List Message
  | [], es, ms => (es, ms)
  | (i, c) :: cs, es, ms => relays cs (relayed es ms i c).1 (relayed es ms i c).2

theorem run_relays (cs : List (Bool × Call)) : ∀ (es : Bool → Engine × GossipBus) (ms : List Message),
    ∃ τ, MeshRun prims tokens (resting es ms) τ (resting (relays cs es ms).1 (relays cs es ms).2) := by
  induction cs with
  | nil => exact fun es ms => ⟨[], .nil _⟩
  | cons ic cs ih =>
    intro es ms
    obtain ⟨τ₁, h₁⟩ := run_relayed es ms ic.1 ic.2
    obtain ⟨τ₂, h₂⟩ := ih (relayed es ms ic.1 ic.2).1 (relayed es ms ic.1 ic.2).2
    exact ⟨τ₁ ++ τ₂, h₁.append h₂⟩

/-- The second validator announces itself, the first proposes, the second votes, and the first commits. -/
def meshCalls : List (Bool × Call) :=
  [(true, .enqueue (entry 9)), (true, .runCycle), (false, .enqueue (entry 9)), (false, .runCycle), (true, .runCycle),
    (false, .runCycle)]

/-- The first validator has a block, the second none. -/
def meshCommitted : Computed (relays meshCalls (fun i => (pairEngines i, GossipBus.new)) []) fun w =>
    (w.1 false).1.blocks.length = 1 ∧ (w.1 true).1.blocks.length = 0 :=
  computed _ (by decide +kernel)

theorem electorate_pair : Electorate prims [peer 1, peer 2] := by
  have hkeys : ∀ p ∈ [peer 1, peer 2], ∀ q ∈ [peer 1, peer 2], p.uid.vrfPublicKey = q.uid.vrfPublicKey → p = q := by
    intro p hp q hq h
    simp only [List.mem_cons, List.not_mem_nil, or_false] at hp hq
    have hne : (peer 1).uid.vrfPublicKey ≠ (peer 2).uid.vrfPublicKey := fun h => by cases congrArg (·.toList.head?) h
    rcases hp with rfl | rfl <;> rcases hq with rfl | rfl
    · rfl
    · exact absurd h hne
    · exact absurd h.symm hne
    · rfl
  refine ⟨fun p _ g g' hg hg' => (vrfOutput_eq hg).trans (vrfOutput_eq hg').symm, fun p hp q hq g hg hg' => ?_, ?_⟩
  · exact hkeys p hp q hq ((vrfOutput_eq hg).symm.trans (vrfOutput_eq hg'))
  · refine ⟨peer 1, by simp, peer 2, by simp, fun h => ?_⟩
    cases congrArg (·.toList.head?) (UIDZeroSoulbound.id_inj h)

/-- The first validator commits, and is the first leader; the second one does not commit. -/
theorem pair_commits_once : ∃ τ w, MeshRun prims tokens (GossipMesh.fresh pair fun _ => [peer 1, peer 2]) τ w ∧
    (w.engine false).blocks.length = 1 ∧ (w.engine true).blocks.length = 0 ∧
    FirstLeader prims [peer 1, peer 2] (pair false).uid.id := by
  obtain ⟨τ, h⟩ := run_relays meshCalls (fun i => (pairEngines i, GossipBus.new)) []
  obtain ⟨w, hw, hfirst, hsecond⟩ := meshCommitted
  rw [← hw] at h
  have hne : (w.1 false).1.blocks ≠ [] := fun hnil => by rw [hnil] at hfirst; cases hfirst
  have honce := mesh_commits_once prims tokens electorate_pair faithful_tokens (fun _ => List.Perm.refl _) h
  exact ⟨τ, _, h, hfirst, hsecond, (honce.1 false).2 hne⟩

end Sample

end Gleipnir
