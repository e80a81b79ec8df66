import Gleipnir.Consensus.AllOrNothing
import Gleipnir.Consensus.Alone
import Gleipnir.Server.MerkleProof

/-!
# Runs of sub-chains

A manager of sub-chains beside its engine: `Register`, `Submit` and `Anchor` of the manager, and any calls of the engine, one
after the other. A ledger of the run says which entries of a sub-chain its tree covers and which ones wait for an anchor.

* `tracks_run`: the tree of a sub-chain is built from the entries that its ledger covers, and its root is that of its last
  anchor.
* `covered_provable_iff`: `Prove` works with the root that the sub-chain has now, so whatever an earlier anchor covers is
  provable exactly if the engine has committed the last anchor.
-/

namespace Gleipnir

open Atomic Atomic.Body

variable (X : Prims)

/-! ## Runs -/

/-- The calls of a run: those of the manager, and those of its engine. -/
inductive ManagerMove where
  | register (name : String) (owner : RootID) (now : Int64)
  | submit (id : SubChainID) (entry : ProvenanceEntry)
  | anchor (id : SubChainID) (trace : Trace)
  | parent (l : Called)

/-- One call. -/
inductive ManagerStep : SubChainManager × Engine → ManagerMove → SubChainManager × Engine → Prop
  | register {m : SubChainManager} {e : Engine} (name : String) (owner : RootID) (now : Int64) :
      ManagerStep (m, e) (.register name owner now) ((m.register X e name owner now).2, e)
  | submit {m : SubChainManager} {e : Engine} (id : SubChainID) (entry : ProvenanceEntry) :
      ManagerStep (m, e) (.submit id entry) ((m.submit id entry).2, e)
  | anchor {m m' : SubChainManager} {e e' : Engine} {id : SubChainID} {t : Trace} {x : Exit (Except SubChainError Unit)}
      (h : Runs (anchorSubChain X id) (m, e) t x (m', e')) : ManagerStep (m, e) (.anchor id t) (m', e')
  | parent {m : SubChainManager} {e e' : Engine} {l : Called} (h : EngineStep X e l e') :
      ManagerStep (m, e) (.parent l) (m, e')

abbrev ManagerTransition : Type := Transition (SubChainManager × Engine) ManagerMove

/-- A run of a manager and its engine. -/
abbrev ManagerRun (s : SubChainManager × Engine) (τ : List ManagerTransition) (s' : SubChainManager × Engine) : Prop :=
  Path (ManagerStep X) s τ s'

variable {X}

theorem step_enqueue {entry : ProvenanceEntry} {e e' : Engine} {t : Trace} {r : Except CallError Unit}
    (h : Runs (enqueue entry) e t (.done r) e') : EngineStep X e ⟨.enqueue entry, t⟩ e' :=
  run_map.2 ⟨(.done (), e'), rfl, runs_bind.2 (.inl ⟨t, r, e', [], by simp, h, runs_pure.2 ⟨rfl, rfl, rfl⟩⟩)⟩

/-- A call of the manager is at most an `Enqueue` for its engine. -/
theorem engine_step {s s' : SubChainManager × Engine} {l : ManagerMove} (h : ManagerStep X s l s') :
    s'.2 = s.2 ∨ ∃ c, EngineStep X s.2 c s'.2 := by
  cases h with
  | register name owner now => exact .inl rfl
  | submit id entry => exact .inl rfl
  | parent h => exact .inr ⟨_, h⟩
  | anchor h =>
    cases runs_anchorSubChain X h with
    | unknown hnone => exact .inl rfl
    | moved sc now hsc henqueue => exact .inr ⟨_, step_enqueue henqueue⟩

/-- The engine of a run has a run of its own. -/
theorem engine_run {s s' : SubChainManager × Engine} {τ : List ManagerTransition} (h : ManagerRun X s τ s') :
    ∃ υ, EngineRun X s.2 υ s'.2 := by
  induction h with
  | nil s => exact ⟨[], .nil _⟩
  | cons hs _ ih =>
    obtain ⟨υ, hυ⟩ := ih
    rcases engine_step hs with heq | ⟨c, hc⟩
    · exact ⟨υ, heq ▸ hυ⟩
    · exact ⟨_, .cons hc hυ⟩

/-! ## What a sub-chain covers -/

/-- The entries of a sub-chain that an anchor covers, and those that wait for one. -/
structure Ledger where
  covered : List ProvenanceEntry
  waiting : List ProvenanceEntry

/-- How a call changes the ledger of a sub-chain that is registered. -/
def Ledger.record (id : SubChainID) (g : Ledger) (x : ManagerTransition) : Ledger :=
  if x.pre.1.chains id = none then g
  else match x.label with
    | .submit id' entry => if id' = id then ⟨g.covered, g.waiting ++ [entry]⟩ else g
    | .anchor id' _ => if id' = id then ⟨g.covered ++ g.waiting, []⟩ else g
    | _ => g

/-- The ledger of a sub-chain after the calls of a run. -/
def ledger (id : SubChainID) (τ : List ManagerTransition) : Ledger := τ.foldl (Ledger.record id) ⟨[], []⟩

theorem prefix_record (id : SubChainID) (g : Ledger) (x : ManagerTransition) : g.covered <+: (g.record id x).covered := by
  unfold Ledger.record
  split
  · exact List.prefix_rfl
  · split
    · split
      · exact List.prefix_rfl
      · exact List.prefix_rfl
    · split
      · exact List.prefix_append _ _
      · exact List.prefix_rfl
    · exact List.prefix_rfl

/-- What a ledger covers stays covered. -/
theorem prefix_ledger (id : SubChainID) (τ υ : List ManagerTransition) :
    (ledger id τ).covered <+: (ledger id (τ ++ υ)).covered := by
  rw [ledger, ledger, List.foldl_append]
  generalize τ.foldl (Ledger.record id) ⟨[], []⟩ = g
  induction υ generalizing g with
  | nil => exact List.prefix_rfl
  | cons x υ ih => exact (prefix_record id g x).trans (ih _)

variable (X) in
/-- The sub-chain is what its ledger says: its tree has the covered entries, and its last anchor has the root of the tree. -/
structure SubChain.Follows (sc : SubChain) (g : Ledger) : Prop where
  tree : sc.st = (SparseMerkleTree.new 256).insertHashes X g.covered
  pending : sc.pending = g.waiting
  last : ∀ a, sc.anchors.getLast? = some a → a.stateRoot = sc.st.root

variable (X) in
/-- The sub-chain `id` of a manager follows its ledger, which is empty as long as it is not registered. -/
structure Tracks (id : SubChainID) (s : SubChainManager × Engine) (g : Ledger) : Prop where
  cfg : s.2.cfg = defaultConfig
  unknown : s.1.chains id = none → g = ⟨[], []⟩
  known : ∀ sc, s.1.chains id = some sc → sc.Follows X g

section Steps

variable {id id' : SubChainID} {m : SubChainManager} {e e' : Engine} {g g' : Ledger} {sc : SubChain}

/-- Only a submission to a registered sub-chain and its anchors go into its ledger. -/
theorem record_eq_self {x : ManagerTransition} (hsubmit : ∀ entry, x.label = .submit id entry → x.pre.1.chains id = none)
    (hanchor : ∀ t, x.label = .anchor id t → x.pre.1.chains id = none) : g.record id x = g := by
  unfold Ledger.record
  split
  · rfl
  · next hsome =>
    split
    · next id' entry hl => exact if_neg fun hid => hsome (hsubmit entry (by rw [hl, hid]))
    · next id' t hl => exact if_neg fun hid => hsome (hanchor t (by rw [hl, hid]))
    · rfl

/-- Replacing one sub-chain concerns its own ledger only. -/
theorem Tracks.put (h : Tracks X id (m, e) g) (hcfg : e'.cfg = e.cfg) (hsame : id' = id → sc.Follows X g')
    (hother : id' ≠ id → g' = g) : Tracks X id (m.put id' sc, e') g' := by
  refine ⟨hcfg.trans h.cfg, ?_, ?_⟩
  · intro hnone
    rw [SubChainManager.chains_put] at hnone
    split at hnone
    · cases hnone
    · next hid =>
      rw [hother (Ne.symm hid)]
      exact h.unknown hnone
  · intro sc' hsc'
    rw [SubChainManager.chains_put] at hsc'
    split at hsc'
    · next hid =>
      cases hsc'
      exact hsame hid.symm
    · next hid =>
      rw [hother (Ne.symm hid)]
      exact h.known sc' hsc'

theorem SubChain.Follows.anchor (h : sc.Follows X g) (now : Int64) :
    (sc.anchor X id now).Follows X ⟨g.covered ++ g.waiting, []⟩ where
  tree := by
    rw [SubChain.anchor, insertHashes_eq, insertHashes_eq, leavesOfEntries_append, h.tree, h.pending, insertHashes_eq]
    exact (List.foldl_append ..).symm
  pending := rfl
  last a ha := by
    rw [SubChain.anchor, List.getLast?_concat] at ha
    cases ha
    rfl

/-- **One call** keeps a sub-chain in step with its ledger. -/
theorem tracks_step {s s' : SubChainManager × Engine} {l : ManagerMove} (hstep : ManagerStep X s l s') (h : Tracks X id s g) :
    Tracks X id s' (g.record id ⟨s, l, s'⟩) := by
  cases hstep with
  | @register m e name owner now =>
    rw [record_eq_self (by simp) (by simp)]
    unfold SubChainManager.register
    dsimp only
    split
    · exact h
    · next hnone =>
      refine h.put rfl (fun hid => ?_) fun _ => rfl
      rw [hid] at hnone
      have hdepth : e.cfg.smtDepth = 256 := by
        rw [h.cfg]
        rfl
      rw [h.unknown hnone, hdepth]
      exact ⟨rfl, rfl, fun a ha => by cases ha⟩
  | @submit m e id' entry =>
    unfold SubChainManager.submit
    split
    · next hnone =>
      rw [record_eq_self (by simpa using fun hid => hid ▸ hnone) (by simp)]
      exact h
    · next sc hsc =>
      refine h.put rfl (fun hid => ?_) fun hid =>
        record_eq_self (by simp [hid]) (by simp)
      rw [hid] at hsc
      have hfollows := h.known sc hsc
      simp only [Ledger.record, hsc, hid, reduceCtorEq, if_false, if_true]
      exact ⟨hfollows.tree, by rw [hfollows.pending], hfollows.last⟩
  | anchor hrun =>
    cases runs_anchorSubChain X hrun with
    | unknown hnone =>
      rw [record_eq_self (by simp) (by simpa using fun hid => hid ▸ hnone)]
      exact h
    | moved sc now hsc henqueue =>
      refine h.put (counts_step (step_enqueue (X := X) henqueue)).2 (fun hid => ?_) fun hid =>
        record_eq_self (by simp) (by simp [hid])
      rw [hid] at hsc
      simp only [Ledger.record, hsc, hid, reduceCtorEq, if_false, if_true]
      exact (h.known sc hsc).anchor _
  | @parent m e e' c hcall =>
    rw [record_eq_self (by simp) (by simp)]
    exact ⟨(counts_step hcall).2.trans h.cfg, h.unknown, h.known⟩

/-- **The ledger of a run** says what its sub-chains are. -/
theorem tracks_run {node : Node} {τ : List ManagerTransition} {s : SubChainManager × Engine}
    (h : ManagerRun X (.new, Engine.new node) τ s) : Tracks X id s (ledger id τ) :=
  h.ghost (fun _ _ _ _ hs ht => tracks_step hs ht) ⟨rfl, fun _ => rfl, fun _ hsc => by cases hsc⟩

end Steps

/-! ## Proofs of covered entries -/

/-- A block of the engine anchors the hash. -/
def Engine.OnChain (e : Engine) (hash : Hash) : Prop := ∃ b ∈ e.blocks, hash ∈ b.hashes

variable (X) in
/-- `Prove` succeeds, and the verifier accepts its proof under the present root of the engine. -/
def Provable (m : SubChainManager) (e : Engine) (id : SubChainID) (hash : Hash) : Prop :=
  ∃ proof, m.prove X e id hash = .ok proof ∧ verifyCrossChain X proof e.st.root = true

variable (X) in
/-- An anchor of the run covers the entry, and the engine has committed it. -/
def CoveredOnChain (id : SubChainID) (τ : List ManagerTransition) (e : Engine) (entry : ProvenanceEntry) : Prop :=
  ∃ τ₁ x τ₂ t sc, τ = τ₁ ++ x :: τ₂ ∧ x.label = .anchor id t ∧ x.post.1.chains id = some sc ∧
    e.OnChain (commitment X id sc.st.root) ∧ entry ∈ (ledger id (τ₁ ++ [x])).covered

variable (X) in
/-- The engine has committed the last anchor of the sub-chain. -/
def LastOnChain (m : SubChainManager) (e : Engine) (id : SubChainID) : Prop :=
  ∃ sc a, m.chains id = some sc ∧ sc.anchors.getLast? = some a ∧ e.OnChain (commitment X id a.stateRoot)

section Proofs

variable {id : SubChainID} {m : SubChainManager} {e : Engine} {g : Ledger} {sc : SubChain} {S : Set Bytes}

theorem SubChain.Follows.hashTree (h : sc.Follows X g) : HashTree X sc.st := by
  rw [h.tree]
  exact hashTree_new.insertHashes g.covered

/-- Every covered entry has a path in the tree of the sub-chain. -/
theorem SubChain.Follows.prove (h : sc.Follows X g) (hS : Collisionless X S)
    (htexts : treeTexts X 256 (leavesOfEntries g.covered) ⊆ S) {entry : ProvenanceEntry} (hentry : entry ∈ g.covered) :
    ∃ p, sc.st.prove entry.hash.toList = some p := by
  have hrep := represents_insertAll (fills_leavesOfEntries g.covered) hS htexts
  obtain ⟨p, hp, -⟩ := hrep.prove (maps_leavesOfEntries.2 ⟨rfl, entry, hentry, rfl⟩)
  exact ⟨p, by rw [h.tree, insertHashes_eq, hp]⟩

/-- Every hash of the chain has a path in the tree of a single node. -/
theorem OwnTree.prove (h : OwnTree X e) (hS : Collisionless X S) (htexts : chainTexts X e.blocks ⊆ S) {hash : Hash}
    (hchain : e.OnChain hash) : ∃ p, e.st.prove hash.toList = some p := by
  obtain ⟨b, hb, hmem⟩ := hchain
  obtain ⟨pe, hpe, rfl⟩ := List.mem_map.1 hmem
  have hentries : pe ∈ entriesOf e.blocks := List.mem_flatMap.2 ⟨b, hb, hpe⟩
  obtain ⟨p, hp, -⟩ := (h.tree S hS htexts).prove (maps_leavesOfEntries.2 ⟨rfl, pe, hentries, rfl⟩)
  exact ⟨p, hp⟩

/-- Whatever `Prove` returns is accepted under the present root. -/
theorem provable_iff (he : HashTree X e.st) (hm : ∀ sc, m.chains id = some sc → HashTree X sc.st) {hash : Hash} :
    Provable X m e id hash ↔ ∃ proof, m.prove X e id hash = .ok proof := by
  refine exists_congr fun proof => and_iff_left_of_imp fun hprove => ?_
  rw [prove_eq_proveSteps] at hprove
  obtain ⟨sc, hsc, hsub, hparent, hentry, hroot, hanchor, -⟩ := proveSteps_eq_ok hprove
  rw [verifyCrossChain_iff, hentry, hroot, hanchor]
  exact ⟨((hm sc hsc).provedUnder_iff hsub _).2 rfl, (he.provedUnder_iff hparent _).2 rfl⟩

/-- `Prove` succeeds only once the commitment to the present root of the sub-chain is on the chain. -/
theorem onChain_of_prove {node : Node} {τ : List ManagerTransition} (h : ManagerRun X (.new, Engine.new node) τ (m, e))
    {hash : Hash} (hprove : ∃ proof, m.prove X e id hash = .ok proof) :
    ∃ sc, m.chains id = some sc ∧ sc.anchors ≠ [] ∧ e.OnChain (commitment X id sc.st.root) := by
  obtain ⟨sc, hsc, -, hanchors, -, hrecord⟩ := prove_ok_iff.1 hprove
  obtain ⟨υ, hυ⟩ := engine_run h
  exact ⟨sc, hsc, hanchors, (indexed_run (.inl ⟨node, rfl⟩) hυ _).1 hrecord⟩

/-- **Anchored entries.** In every run of a manager and a single node, and for every entry that a committed anchor covers: the
entry is provable exactly if the last anchor of the sub-chain is committed, too. -/
theorem covered_provable_iff {node : Node} {τ : List ManagerTransition} (h : ManagerRun X (.new, Engine.new node) τ (m, e))
    {entry : ProvenanceEntry} (hcovered : CoveredOnChain X id τ e entry)
    (hX : Collisionless X (treeTexts X 256 (leavesOfEntries (ledger id τ).covered) ∪ chainTexts X e.blocks)) :
    Provable X m e id entry.hash ↔ LastOnChain X m e id := by
  have htracks : Tracks X id (m, e) (ledger id τ) := tracks_run h
  obtain ⟨υ, hυ⟩ := engine_run h
  have htree := ownTree_run hυ
  have hindexed : Indexed e := indexed_run (.inl ⟨node, rfl⟩) hυ
  have hstandard : Standard X e := standard_run (.inl ⟨node, rfl⟩) hυ
  have hentry : entry ∈ (ledger id τ).covered := by
    obtain ⟨τ₁, x, τ₂, t, sc, rfl, -, -, -, hmem⟩ := hcovered
    have hprefix := prefix_ledger id (τ₁ ++ [x]) τ₂
    rw [List.append_assoc] at hprefix
    exact hprefix.subset hmem
  rw [provable_iff hstandard.tree fun sc hsc => (htracks.known sc hsc).hashTree]
  constructor
  · intro hprove
    obtain ⟨sc, hsc, hanchors, hchain⟩ := onChain_of_prove h hprove
    obtain ⟨a, ha⟩ := Option.ne_none_iff_exists'.1 (mt List.getLast?_eq_none_iff.1 hanchors)
    exact ⟨sc, a, hsc, ha, by rwa [(htracks.known sc hsc).last a ha]⟩
  · rintro ⟨sc, a, hsc, ha, hchain⟩
    have hfollows := htracks.known sc hsc
    rw [hfollows.last a ha] at hchain
    refine prove_ok_iff.2 ⟨sc, hsc, hfollows.prove hX Set.subset_union_left hentry, ?_,
      htree.prove hX Set.subset_union_right hchain, (hindexed _).2 hchain⟩
    rintro hnil
    rw [hnil] at ha
    cases ha

end Proofs

namespace Sample

/-! ### Serving calls -/

/-- Serve a call on a bus, with the trace that it has there. -/
def serveMove (X : Prims) (move : ManagerMove) (s : SubChainManager × Engine) (b : MemoryBus) :
    ManagerMove × (SubChainManager × Engine) × MemoryBus :=
  match move with
  | .register name owner now => (move, ((s.1.register X s.2 name owner now).2, s.2), b)
  | .submit id entry => (move, ((s.1.submit id entry).2, s.2), b)
  | .anchor id _ =>
    let x := serveOn b (anchorSubChain X id s)
    (.anchor id x.2.1, x.1.2, x.2.2)
  | .parent l =>
    let x := serveOn b (l.call.prog X s.2)
    (.parent ⟨l.call, x.2.1⟩, (s.1, x.1), x.2.2)

theorem step_serveMove (X : Prims) (move : ManagerMove) (s : SubChainManager × Engine) (b : MemoryBus) :
    ManagerStep X s (serveMove X move s b).1 (serveMove X move s b).2.1 := by
  cases move with
  | register name owner now => exact .register name owner now
  | submit id entry => exact .submit id entry
  | anchor id t => exact .anchor (run_serveOn b (anchorSubChain X id s))
  | parent l => exact .parent (run_serveOn b (l.call.prog X s.2))

/-- Serve calls one after the other. -/
def serveMoves (X : Prims) : List ManagerMove → SubChainManager × Engine → MemoryBus →
    List ManagerTransition × (SubChainManager × Engine) × MemoryBus
  | [], s, b => ([], s, b)
  | move :: moves, s, b =>
    let x := serveMove X move s b
    let rest := serveMoves X moves x.2.1 x.2.2
    (⟨s, x.1, x.2.1⟩ :: rest.1, rest.2)

theorem run_serveMoves (X : Prims) (moves : List ManagerMove) : ∀ (s : SubChainManager × Engine) (b : MemoryBus),
    ManagerRun X s (serveMoves X moves s b).1 (serveMoves X moves s b).2.1 := by
  induction moves with
  | nil => exact fun s _ => .nil s
  | cons move moves ih => exact fun s b => .cons (step_serveMove X move s b) (ih _ _)

theorem serveMoves_append (X : Prims) (u v : List ManagerMove) : ∀ (s : SubChainManager × Engine) (b : MemoryBus),
    serveMoves X (u ++ v) s b =
      ((serveMoves X u s b).1 ++ (serveMoves X v (serveMoves X u s b).2.1 (serveMoves X u s b).2.2).1,
        (serveMoves X v (serveMoves X u s b).2.1 (serveMoves X u s b).2.2).2) := by
  induction u with
  | nil => exact fun _ _ => rfl
  | cons move u ih =>
    intro s b
    rw [List.cons_append, serveMoves, ih]
    rfl

variable {e : Engine} {covered : List ProvenanceEntry}

/-- What an anchor covers, once it is committed. -/
theorem coveredOnChain_serveMoves {X : Prims} {u : List ManagerMove} {id : SubChainID} {t : Trace}
    {s : SubChainManager × Engine} {b : MemoryBus} {sc : SubChain} {entry : ProvenanceEntry}
    (hsc : (serveMoves X (u ++ [.anchor id t]) s b).2.1.1.chains id = some sc) (hchain : e.OnChain (commitment X id sc.st.root))
    (hentry : entry ∈ (ledger id (serveMoves X (u ++ [.anchor id t]) s b).1).covered) (v : List ManagerMove) :
    CoveredOnChain X id (serveMoves X (u ++ [.anchor id t] ++ v) s b).1 e entry := by
  rw [serveMoves_append] at hsc hentry
  rw [serveMoves_append, serveMoves_append]
  exact ⟨_, _, _, _, sc, List.append_assoc .., rfl, hsc, hchain, hentry⟩

/-! ### A sub-chain with two anchors -/

/-- The sub-chain that the first validator registers at the time `1`. -/
def tagID : SubChainID := tagHash ((Arr.copy 16 [1] : RootID).toList ++ le64 1)

/-- It has an anchor for the first entry. -/
def movesToAnchor : List ManagerMove := [.register "" (Arr.copy 16 [1]) 1, .submit tagID leftEntry, .anchor tagID []]

/-- The anchor is committed. -/
def movesToCommit : List ManagerMove := movesToAnchor ++ [.parent ⟨.runCycle, []⟩]

/-- There is a second anchor. -/
def movesToSecond : List ManagerMove := movesToCommit ++ [.submit tagID rightEntry, .anchor tagID []]

def served (moves : List ManagerMove) : List ManagerTransition × (SubChainManager × Engine) × MemoryBus :=
  serveMoves tagging moves (.new, Engine.new (node 1)) MemoryBus.new

/-- The roots of the sub-chain at its two anchors. -/
def firstRoot : Hash := leafHash tagging leftEntry.hash.toList leftEntry.hash.toList

def secondRoot : Hash := ((SparseMerkleTree.new 256).insertHashes tagging [leftEntry, rightEntry]).root

def firstCommitment : Hash := commitment tagging tagID firstRoot

/-- The root of the sub-chain and those of its anchors, the hashes of the chain, and what the ledger covers. -/
def outline (x : List ManagerTransition × (SubChainManager × Engine) × MemoryBus) :
    Option (Hash × List Hash) × List (List Hash) × List ProvenanceEntry :=
  ((x.2.1.1.chains tagID).map fun sc => (sc.st.root, sc.anchors.map (·.stateRoot)), x.2.1.2.blocks.map (·.hashes),
    (ledger tagID x.1).covered)

def outlineAnchor : Computed (outline (served movesToAnchor)) fun x =>
    x = (some (firstRoot, [firstRoot]), [], [leftEntry]) :=
  computed _ (by decide +kernel)

def outlineCommit : Computed (outline (served movesToCommit)) fun x =>
    x = (some (firstRoot, [firstRoot]), [[firstCommitment]], [leftEntry]) :=
  computed _ (by decide +kernel)

def outlineSecond : Computed (outline (served movesToSecond)) fun x =>
    x = (some (secondRoot, [firstRoot, secondRoot]), [[firstCommitment]], [leftEntry, rightEntry]) ∧
      commitment tagging tagID secondRoot ≠ firstCommitment :=
  computed _ (by decide +kernel)

theorem outline_eq {x : List ManagerTransition × (SubChainManager × Engine) × MemoryBus} {root : Hash} {anchors : List Hash}
    {hashes : List (List Hash)} (h : outline x = (some (root, anchors), hashes, covered)) :
    (∃ sc, x.2.1.1.chains tagID = some sc ∧ sc.st.root = root ∧ sc.anchors.map (·.stateRoot) = anchors) ∧
      x.2.1.2.blocks.map (·.hashes) = hashes ∧ (ledger tagID x.1).covered = covered := by
  simp only [outline, Prod.mk.injEq, Option.map_eq_some_iff] at h
  exact h

/-- A chain with the first commitment and nothing else. -/
theorem onChain_iff (h : e.blocks.map (·.hashes) = [[firstCommitment]]) (hash : Hash) :
    e.OnChain hash ↔ hash = firstCommitment := by
  have hmem : e.OnChain hash ↔ ∃ l ∈ e.blocks.map (·.hashes), hash ∈ l := by simp [Engine.OnChain]
  rw [hmem, h]
  simp

/-- The first entry is covered by the first anchor, which is on the chain. -/
theorem leftEntry_covered (h : e.OnChain firstCommitment) (v : List ManagerMove) :
    CoveredOnChain tagging tagID (served (movesToAnchor ++ v)).1 e leftEntry := by
  obtain ⟨x, hx, hfacts⟩ := outlineAnchor
  rw [hx] at hfacts
  obtain ⟨⟨sc, hsc, hroot, -⟩, -, hcovered⟩ := outline_eq hfacts
  refine coveredOnChain_serveMoves (u := [.register "" (Arr.copy 16 [1]) 1, .submit tagID leftEntry]) (t := []) hsc ?_ ?_ v
  · rwa [hroot]
  · change leftEntry ∈ (ledger tagID (served movesToAnchor).1).covered
    rw [hcovered]
    exact List.mem_singleton.2 rfl

/-! ### No collisions -/

/-- The strings that `Anchor` and `Prove` hash for the anchors of a sub-chain. -/
def anchorTexts (id : SubChainID) (m : SubChainManager) : Set Bytes :=
  {s | ∃ sc, m.chains id = some sc ∧ ∃ root ∈ sc.anchors.map (·.stateRoot), s = id.toList ++ root.toList}

/-- Everything that is hashed for the two trees and the two anchors. -/
def tagTexts : List Bytes :=
  grownTexts (leavesOfEntries [leftEntry, rightEntry]) ++
    (grownTexts [(firstCommitment.toList, firstCommitment.toList)] ++
      [firstRoot, secondRoot].map fun root => tagID.toList ++ root.toList)

def tagTextsTagged : Computed tagTexts fun texts => tagged texts = true := computed _ (by decide +kernel)

theorem collisionless_tagTexts : Collisionless tagging (textsWith tagTexts) := by
  obtain ⟨texts, rfl, htagged⟩ := tagTextsTagged
  exact collisionless_tagged htagged

/-- The trees of the two runs are among these strings. -/
theorem treeTexts_tagging (h : covered <+: [leftEntry, rightEntry]) :
    treeTexts tagging 256 (leavesOfEntries covered) ⊆ textsWith tagTexts :=
  (treeTexts_mono (h.map _)).trans (treeTexts_subset fun _ hs => List.mem_append_left _ hs)

theorem chainTexts_tagging (h : e.blocks.map (·.hashes) = [[firstCommitment]]) :
    chainTexts tagging e.blocks ⊆ textsWith tagTexts := by
  have hleaves : leavesOfEntries (entriesOf e.blocks) =
      (e.blocks.map (·.hashes)).flatten.map fun hash => (hash.toList, hash.toList) := by
    simp [leavesOfEntries, entriesOf, Block.hashes, List.map_flatten, List.flatMap_def, Function.comp_def]
  rw [chainTexts, hleaves, h]
  exact treeTexts_subset fun s hs => List.mem_append_right _ (List.mem_append_left _ hs)

/-- With its only anchor on the chain, the sub-chain has its entry provable. -/
theorem first_anchor_provable : ∃ node τ m e, ManagerRun tagging (.new, Engine.new node) τ (m, e) ∧
    CoveredOnChain tagging tagID τ e leftEntry ∧ Provable tagging m e tagID leftEntry.hash := by
  obtain ⟨x, hx, hfacts⟩ := outlineCommit
  rw [hx] at hfacts
  obtain ⟨⟨sc, hsc, hroot, hanchors⟩, hblocks, hcovered⟩ := outline_eq hfacts
  have hrun : ManagerRun tagging (.new, Engine.new (node 1)) (served movesToCommit).1 (served movesToCommit).2.1 :=
    run_serveMoves _ _ _ _
  have hchain := (onChain_iff hblocks firstCommitment).2 rfl
  have hcover : CoveredOnChain tagging tagID (served movesToCommit).1 (served movesToCommit).2.1.2 leftEntry :=
    leftEntry_covered hchain [.parent ⟨.runCycle, []⟩]
  generalize served movesToCommit = y at hsc hblocks hcovered hrun hchain hcover
  obtain ⟨τ, ⟨m, e⟩, b⟩ := y
  obtain ⟨a, rest, hlist, ha, hnil⟩ := List.map_eq_cons_iff.1 hanchors
  obtain rfl := List.map_eq_nil_iff.1 hnil
  refine ⟨node 1, τ, m, e, hrun, hcover, (covered_provable_iff hrun hcover ?_).2 ⟨sc, a, hsc, by rw [hlist]; rfl, ?_⟩⟩
  · rw [hcovered]
    exact collisionless_tagTexts.mono (Set.union_subset (treeTexts_tagging ⟨[rightEntry], rfl⟩) (chainTexts_tagging hblocks))
  · rw [ha]
    exact hchain

/-- A second anchor that waits for a block makes the first entry unprovable. -/
theorem second_anchor_unprovable : ∃ node τ m e, ManagerRun tagging (.new, Engine.new node) τ (m, e) ∧
    CoveredOnChain tagging tagID τ e leftEntry ∧
    Collisionless tagging (treeTexts tagging 256 (leavesOfEntries (ledger tagID τ).covered) ∪ chainTexts tagging e.blocks ∪
      anchorTexts tagID m) ∧
    ¬ ∃ proof, m.prove tagging e tagID leftEntry.hash = .ok proof := by
  obtain ⟨x, hx, hfacts, hne⟩ := outlineSecond
  rw [hx] at hfacts
  obtain ⟨⟨sc, hsc, hroot, hanchors⟩, hblocks, hcovered⟩ := outline_eq hfacts
  have hrun : ManagerRun tagging (.new, Engine.new (node 1)) (served movesToSecond).1 (served movesToSecond).2.1 :=
    run_serveMoves _ _ _ _
  have hcover : CoveredOnChain tagging tagID (served movesToSecond).1 (served movesToSecond).2.1.2 leftEntry :=
    leftEntry_covered ((onChain_iff hblocks firstCommitment).2 rfl)
      [.parent ⟨.runCycle, []⟩, .submit tagID rightEntry, .anchor tagID []]
  generalize served movesToSecond = y at hsc hblocks hcovered hrun hcover
  obtain ⟨τ, ⟨m, e⟩, b⟩ := y
  refine ⟨node 1, τ, m, e, hrun, hcover, ?_, fun hprove => ?_⟩
  · rw [hcovered]
    refine collisionless_tagTexts.mono (Set.union_subset (Set.union_subset (treeTexts_tagging List.prefix_rfl)
      (chainTexts_tagging hblocks)) ?_)
    rintro s ⟨sc', hsc', root, hmem, rfl⟩
    cases hsc.symm.trans hsc'
    rw [hanchors] at hmem
    exact .inr (List.mem_append_right _ (List.mem_append_right _ (List.mem_map.2 ⟨root, hmem, rfl⟩)))
  · obtain ⟨sc', hsc', -, hchain⟩ := onChain_of_prove hrun hprove
    cases hsc.symm.trans hsc'
    rw [onChain_iff hblocks, hroot] at hchain
    exact hne hchain

end Sample

end Gleipnir
