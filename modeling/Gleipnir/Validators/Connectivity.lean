import Gleipnir.State.Connectivity
import Gleipnir.Validators.Activity

/-!
# Which networks can commit

The graph of an engine is fixed when it is built, so what `Apply` finds about its connectivity is settled then
(`fragmentation_settled`), and one cached factorisation serves all its transitions (`transitions_cached`). An engine with
twenty validators or more finds its network fragmented and never commits (`large_never_commits`), and so does one that is not on
its own list of peers (`omitted_never_commits`); a mesh of fewer validators is never found fragmented
(`mesh_never_fragmented`).
-/

namespace Gleipnir

open Atomic Atomic.Body Ieee ExchangeSort Spectral Matrix

variable {X : Prims} {L : Numerics} {F : Format}

/-! ## The network state along a run -/

/-- What a transition of an engine does to its network state: it counts cycles, or applies the transition of a block. -/
inductive Transitioned (X : Prims) (e e' : Engine) : Prop
  | counted (cycle : UInt64) (hstate : e'.state = { e.state with cycle }) (hblocks : e'.blocks = e.blocks)
  | applied (b : Block) (hblocks : e'.blocks = e.blocks ++ [b])
      (hstate : apply X e.state e.state.supervisionRoot [e.node.uid.id] e.cfg = .ok e'.state)

variable {e e' e₀ : Engine} {τ : List (Transition Engine Called)}

theorem transitioned_cycle {t : Trace} {x : Exit Unit} (h : Cycled X e t x e') : Transitioned X e e' := by
  have hphases : ∀ {pool t y e₂}, e.Phases X pool t y e₂ →
      e₂.state = e.state ∧ e₂.blocks = e.blocks ∧ e₂.node = e.node ∧ e₂.cfg = e.cfg := by
    intro pool t y e₂ hp
    obtain ⟨st, rfl⟩ := phases_frame X hp
    exact ⟨by simp, by simp, by simp, ready_cfg e pool⟩
  cases h with
  | @skipped pool hs =>
    obtain ⟨pending, hstart⟩ := e.start_eq pool
    rw [hstart]
    exact .counted _ rfl rfl
  | panicked hs hp =>
    obtain ⟨hstate, hblocks, -⟩ := hphases hp
    exact .counted e.state.cycle hstate hblocks
  | aborted hs hp =>
    obtain ⟨hstate, hblocks, -⟩ := hphases hp
    refine .counted (e.state.cycle + 1) ?_ hblocks
    rw [Engine.abort, hstate]
  | failed hs hp hc =>
    obtain ⟨hstate, hblocks, -⟩ := hphases hp
    rw [conclude_none hc]
    refine .counted (e.state.cycle + 1) ?_ hblocks
    rw [Engine.abort, Engine.transit, hstate]
  | committed hs hp hc =>
    obtain ⟨hstate, -, hnode, hcfg⟩ := hphases hp
    obtain ⟨next, -, happly, hpost⟩ := conclude_some hc
    refine .applied _ (concluded_blocks X hp hc) ?_
    rw [hstate, hnode, hcfg] at happly
    rw [happly, Engine.concluded, hpost]
    rfl

theorem transitioned_step {l : Called} (h : EngineStep X e l e') : Transitioned X e e' := by
  by_cases hc : l.call = .runCycle
  · rw [EngineStep, hc] at h
    obtain ⟨x, hcycled⟩ := run_runCycle X h
    exact transitioned_cycle hcycled
  · obtain ⟨⟨x, s⟩, rfl, hrun⟩ := run_map.1 h
    cases filed_call X hc hrun with
    | nothing hwork ht =>
      simp only [Engine.work, Prod.mk.injEq] at hwork
      obtain ⟨-, hstate, -, -, hblocks, -⟩ := hwork
      exact .counted e.state.cycle hstate hblocks
    | queued entry hwork hadmits ht =>
      simp only [Engine.work, Engine.push, Prod.mk.injEq] at hwork
      obtain ⟨-, hstate, -, -, hblocks, -⟩ := hwork
      exact .counted e.state.cycle hstate hblocks

theorem keys_mapNodes (f : String → NodeState → NodeState) (nodes : Nodes) :
    (mapNodes f nodes).keys = nodes.keys := by
  simp [AList.keys, List.keys, mapNodes, Function.comp_def]

theorem length_mapNodes (f : String → NodeState → NodeState) (nodes : Nodes) :
    (mapNodes f nodes).entries.length = nodes.entries.length := List.length_map _

/-- The eigenvalue depends on the identifiers of the nodes only. -/
theorem computeLambda1_congr {s : NetworkState} (hX : X.ComputesWith L F s.OwnGraph) {nodes : Nodes}
    (h : nodes.keys = s.nodes.keys) : computeLambda1 X nodes s.graph = computeLambda1 X s.nodes s.graph := by
  have hlength : nodes.entries.length = s.nodes.entries.length := by rw [← length_keys, ← length_keys, h]
  unfold computeLambda1
  rw [hlength]
  split
  · rfl
  · next h2 =>
    have hperm : nodes.keys.Perm s.nodes.keys := h ▸ List.Perm.refl _
    have hbuild := buildLaplacianWithOrder_eq_of_perm (F := F) hperm s.graph
    have hplain : plainLambda1 L F (cacheOptions F) nodes s.graph = plainLambda1 L F (cacheOptions F) s.nodes s.graph := by
      simp only [plainLambda1, factorisation, hlength, hbuild]
    have hnodes := hX nodes s.graph ⟨hperm, rfl⟩ (by omega)
    rw [hplain, hX s.nodes s.graph ⟨.refl _, rfl⟩ (by omega)] at hnodes
    exact (Option.some.inj hnodes).symm

/-! ## Fragmentation -/

/-- The graph of the engine is one that `Apply` refuses. -/
def Engine.Fragmented (X : Prims) (e : Engine) : Prop :=
  2 ≤ e.state.nodes.entries.length ∧ computeLambda1 X e.state.nodes e.state.graph < e.cfg.minLambda1

/-- What stays of `e₀`: the configuration, the identifiers and the edges; the eigenvalue, once there is one, is theirs. -/
structure Steady (X : Prims) (e₀ e : Engine) : Prop where
  cfg : e.cfg = e₀.cfg
  keys : e.state.nodes.keys = e₀.state.nodes.keys
  graph : e.state.graph = e₀.state.graph
  lambda1 : e.state.lambda1 = 0 ∨ e.state.lambda1 = computeLambda1 X e₀.state.nodes e₀.state.graph
  blocks : e.blocks ≠ [] → ¬ e₀.Fragmented X

section Steady

variable {e₀ e e' : Engine}

theorem Steady.length (h : Steady X e₀ e) : e.state.nodes.entries.length = e₀.state.nodes.entries.length := by
  rw [← length_keys, ← length_keys, h.keys]

/-- The eigenvalue of the next cycle is that of the graph of `e₀`. -/
theorem Steady.nextLambda1 (h : Steady X e₀ e) (hX : X.ComputesWith L F e₀.state.OwnGraph) (heartbeats : List String) :
    nextLambda1 X e.state (mapNodes (beat heartbeats e.cfg) e.state.nodes) e.cfg =
      computeLambda1 X e₀.state.nodes e₀.state.graph := by
  unfold Gleipnir.nextLambda1
  split
  · rw [h.graph, computeLambda1_congr hX ((keys_mapNodes _ _).trans h.keys)]
  · next hno =>
    rw [not_or, not_or] at hno
    exact h.lambda1.resolve_left hno.2.1

/-- **The outcome of a transition** is settled by the graph of `e₀`. -/
theorem Steady.apply_iff (h : Steady X e₀ e) (hX : X.ComputesWith L F e₀.state.OwnGraph) (heartbeats : List String) :
    (e₀.Fragmented X → apply X e.state e.state.supervisionRoot heartbeats e.cfg = .error .networkFragmented) ∧
      (¬ e₀.Fragmented X → ∃ s, apply X e.state e.state.supervisionRoot heartbeats e.cfg = .ok s ∧
        s.lambda1 = computeLambda1 X e₀.state.nodes e₀.state.graph) := by
  have hchain : ¬(0 < e.state.cycle ∧ e.state.supervisionRoot ≠ e.state.supervisionRoot) := fun hc => hc.2 rfl
  unfold apply
  rw [if_neg hchain]
  dsimp only
  rw [h.nextLambda1 hX, length_mapNodes, h.length, h.cfg]
  constructor
  · exact fun hfrag => if_pos hfrag
  · intro hok
    exact ⟨_, if_neg hok, rfl⟩

theorem steady_step (hX : X.ComputesWith L F e₀.state.OwnGraph) (hstep : Transitioned X e e') (hcfg : e'.cfg = e.cfg)
    (h : Steady X e₀ e) : Steady X e₀ e' := by
  cases hstep with
  | counted cycle hstate hblocks =>
    refine ⟨hcfg.trans h.cfg, ?_, ?_, ?_, fun hne => h.blocks (by rwa [← hblocks])⟩
    · rw [hstate]
      exact h.keys
    · rw [hstate]
      exact h.graph
    · rw [hstate]
      exact h.lambda1
  | applied b hblocks hstate =>
    obtain ⟨hrefused, haccepted⟩ := h.apply_iff hX [e.node.uid.id]
    have hok : ¬ e₀.Fragmented X := by
      intro hfrag
      rw [hrefused hfrag] at hstate
      cases hstate
    obtain ⟨s, hs, hlambda⟩ := haccepted hok
    obtain rfl : s = e'.state := Except.ok.inj (hs.symm.trans hstate)
    obtain ⟨lambda1, root, heq⟩ := apply_eq X hstate
    refine ⟨hcfg.trans h.cfg, ?_, ?_, .inr hlambda, fun _ => hok⟩
    · rw [heq]
      exact (keys_mapNodes _ _).trans h.keys
    · rw [heq]
      exact h.graph

theorem steady_run (hX : X.ComputesWith L F e₀.state.OwnGraph) {τ : List (Transition Engine Called)} (hf : e₀.Fresh)
    (h : EngineRun X e₀ τ e) : Steady X e₀ e := by
  refine h.preserves (fun e l e' hstep hinv => steady_step hX (transitioned_step hstep) (counts_step hstep).2 hinv) ?_
  refine ⟨rfl, rfl, rfl, .inl ?_, fun hne => absurd hf.blank.blocks hne⟩
  rcases hf with ⟨node, rfl⟩ | ⟨node, hasGossip, peers, rfl⟩ <;> rfl

end Steady

namespace Sample

/-- The second eigenvalue of a clique or of isolated vertices, read off an entry beside the diagonal. -/
def secondOf (l : SymDense) : ℚ :=
  match l.entry 0 1 with
  | some (.fin q) => -q * l.length
  | _ => 0

/-- Routines that evaluate quickly. -/
def numerics : Numerics where
  Chol := Unit
  factorize := fun _ => some ()
  solveVecTo := fun _ b => some b
  mulVec := fun _ x => x
  dot := fun x _ => if .nan ∈ x then .nan else .fin 0
  norm2 := fun b => if b.all (· = .fin 0) then .fin 0 else .fin 1
  eigenSym := fun l => some (.fin 0 :: List.replicate (l.length - 1) (.fin (secondOf l)))
  formatWeight := fun _ => ""

theorem powerIter_numerics (l : SymDense) (chol : numerics.Chol) (opts : Lambda1Options) (k : Nat) :
    ∀ b lambda, (Datum.fin 0).lt lambda = false → powerIter numerics exactFormat l chol opts k b lambda = .fin 0 := by
  induction k with
  | zero => exact fun _ _ _ => rfl
  | succ k ih =>
    intro b lambda hlambda
    have hdot : ∀ ys, numerics.dot b ys = if .nan ∈ b then .nan else .fin 0 := fun _ => rfl
    have hsolve : numerics.solveVecTo chol b = some b := rfl
    rw [powerIter, hsolve]
    dsimp only
    rw [hdot, hdot]
    by_cases hnan : .nan ∈ b
    · rw [if_pos hnan, Datum.nan_div, hlambda]
      exact ih _ .nan (Datum.not_lt_nan _)
    · rw [if_neg hnan]
      rfl

theorem eigenSym_numerics (l : SymDense) : ∃ q, computeLambda1EigenSym numerics l = .fin q := by
  unfold computeLambda1EigenSym
  split
  · exact ⟨0, rfl⟩
  · next values hvalues =>
    have hlist : values = .fin 0 :: List.replicate (l.length - 1) (.fin (secondOf l)) := (Option.some.inj hvalues).symm
    split
    · exact ⟨0, rfl⟩
    · next lambda1 hsome =>
      rw [hlist, List.getElem?_cons_succ, List.getElem?_replicate] at hsome
      split at hsome
      · cases hsome
        split
        · exact ⟨0, rfl⟩
        · exact ⟨_, rfl⟩
      · cases hsome

theorem fromCache_numerics (l : SymDense) (chol : numerics.Chol) (opts : Lambda1Options) :
    ∃ q, computeLambda1FromCache numerics exactFormat l chol opts = .fin q := by
  unfold computeLambda1FromCache
  split
  · exact ⟨0, rfl⟩
  · split
    · exact eigenSym_numerics l
    · exact ⟨0, powerIter_numerics l chol opts _ _ _ rfl⟩

/-- The sample primitives, with the eigenvalue computed. -/
def meshPrims : Prims := { prims with
  fiedler := fun nodes edges => (lambda1Of (plainLambda1 numerics exactFormat (cacheOptions exactFormat) nodes edges)).getD 0 }

theorem meshPrims_computes (P : Nodes → List Edge → Prop) : meshPrims.ComputesWith numerics exactFormat P := by
  intro nodes edges _ h2
  have hfinite : ∃ q, lambda1Of (plainLambda1 numerics exactFormat (cacheOptions exactFormat) nodes edges) = some q := by
    rw [plainLambda1, if_neg (by omega)]
    obtain ⟨q, hq⟩ := fromCache_numerics (buildLaplacianWithOrder exactFormat nodes edges).1 () (cacheOptions exactFormat)
    have hfact : factorisation numerics exactFormat (cacheOptions exactFormat) nodes edges = some () := rfl
    rw [hfact]
    dsimp only
    rw [hq]
    exact ⟨q, rfl⟩
  obtain ⟨q, hq⟩ := hfinite
  have hfiedler : meshPrims.fiedler nodes edges = (some q).getD 0 := congrArg (Option.getD · 0) hq
  rw [hq, hfiedler]
  rfl

end Sample

/-- An engine built over a fragmented graph commits nothing. -/
theorem fragmented_blocks (hX : X.ComputesWith L F e₀.state.OwnGraph) (hf : e₀.Fresh) (h : EngineRun X e₀ τ e)
    (hfrag : e₀.Fragmented X) : e.blocks = [] := by
  by_contra hne
  exact (steady_run hX hf h).blocks hne hfrag

/-- An engine built over a connected graph is refused no transition. -/
theorem connected_apply (hX : X.ComputesWith L F e₀.state.OwnGraph) (hf : e₀.Fresh) (h : EngineRun X e₀ τ e)
    (hok : ¬ e₀.Fragmented X) (heartbeats : List String) :
    ∃ s, apply X e.state e.state.supervisionRoot heartbeats e.cfg = .ok s := by
  obtain ⟨s, hs, -⟩ := ((steady_run hX hf h).apply_iff hX heartbeats).2 hok
  exact ⟨s, hs⟩

/-- **Fragmentation is settled when an engine is built.** If the graph of a new engine is fragmented, every transition of every
run is refused and no block is ever committed; if it is not, no transition of any run is refused. -/
theorem fragmentation_settled {e₀ e : Engine} (hX : X.ComputesWith L F e₀.state.OwnGraph)
    {τ : List (Transition Engine Called)} (hf : e₀.Fresh) (h : EngineRun X e₀ τ e) :
    (e₀.Fragmented X → e.blocks = [] ∧ ∀ heartbeats,
      apply X e.state e.state.supervisionRoot heartbeats e.cfg = .error .networkFragmented) ∧
    (¬ e₀.Fragmented X → ∀ heartbeats, ∃ s, apply X e.state e.state.supervisionRoot heartbeats e.cfg = .ok s) := by
  refine ⟨fun hfrag => ⟨fragmented_blocks hX hf h hfrag, fun heartbeats => ?_⟩, connected_apply hX hf h⟩
  exact ((steady_run hX hf h).apply_iff hX heartbeats).1 hfrag

namespace Sample

/-- An engine after an entry and two cycles. -/
def cycledTwice (e : Engine) : Engine :=
  (callsOver meshPrims [.enqueue (entry 9), .runCycle, .runCycle] e MemoryBus.new).2.1

theorem run_cycledTwice (e : Engine) : ∃ τ, EngineRun meshPrims e τ (cycledTwice e) :=
  ⟨_, run_callsOver meshPrims [.enqueue (entry 9), .runCycle, .runCycle] e MemoryBus.new⟩

/-- One of two validators after two cycles. -/
theorem two_settled : ∃ e, e = cycledTwice (two 1) ∧ ((two 1).Fragmented meshPrims → e.blocks = []) ∧
    (¬ (two 1).Fragmented meshPrims → ∀ heartbeats, ∃ s,
      apply meshPrims e.state e.state.supervisionRoot heartbeats e.cfg = .ok s) := by
  obtain ⟨τ, hrun⟩ := run_cycledTwice (two 1)
  obtain ⟨hfrag, hok⟩ := fragmentation_settled (meshPrims_computes _) (.inr ⟨node 1, true, [peer 1, peer 2], rfl⟩) hrun
  exact ⟨_, rfl, fun h => (hfrag h).1, hok⟩

end Sample

/-- **One cache serves an engine.** Transitions of states that an engine reaches, in any order and with any heartbeats, have
with one cache the results that they have without. -/
theorem transitions_cached {e₀ : Engine} (hX : X.ComputesWith L F e₀.state.OwnGraph) (hf : e₀.Fresh) {calls : List ApplyCall}
    (hcalls : ∀ c ∈ calls, ∃ τ e, EngineRun X e₀ τ e ∧ c.s = e.state) :
    applyAll X F (IncrementalLaplacian.default F : IncrementalLaplacian L) calls =
      calls.map fun c => some (apply X c.s c.prevRoot c.heartbeats c.cfg) := by
  refine applyAll_eq hX (IncrementalLaplacian.sound_default L F _)
    (told_fixed (cacheOptions F) e₀.state) fun c hc => ?_
  obtain ⟨τ, e, hrun, hs⟩ := hcalls c hc
  have hsteady := steady_run hX hf hrun
  rw [NetworkState.OwnGraph, ApplyCall.nodes, keys_mapNodes, hs]
  exact ⟨hsteady.keys ▸ List.Perm.refl _, hsteady.graph⟩

namespace Sample

/-- Transitions of an engine after two cycles and of a new one. -/
def twoCalls : List ApplyCall :=
  [⟨(cycledTwice (two 1)).state, Arr.zero 32, [(uid 1).id], defaultConfig⟩, ⟨(two 1).state, Arr.zero 32, [], defaultConfig⟩]

theorem twoCalls_cached : applyAll meshPrims exactFormat (IncrementalLaplacian.default exactFormat : IncrementalLaplacian numerics)
    twoCalls = twoCalls.map fun c => some (apply meshPrims c.s c.prevRoot c.heartbeats c.cfg) := by
  refine transitions_cached (meshPrims_computes _) (.inr ⟨node 1, true, [peer 1, peer 2], rfl⟩) fun c hc => ?_
  simp only [twoCalls, List.mem_cons, List.not_mem_nil, or_false] at hc
  rcases hc with hc | hc
  · obtain ⟨τ, hrun⟩ := run_cycledTwice (two 1)
    exact ⟨τ, cycledTwice (two 1), hrun, by rw [hc]⟩
  · exact ⟨[], two 1, .nil (two 1), by rw [hc]⟩

end Sample

/-! ## Engines with peers -/

/-- The identifiers of a node and its peers, each once. -/
def memberIds (node : Node) (peers : List Peer) : List String := (node.uid.id :: peers.map (·.uid.id)).dedup

section Peers

variable {node : Node} {hasGossip : Bool} {peers : List Peer}

theorem mem_keys_newWithPeers {id : String} :
    id ∈ (Engine.newWithPeers node hasGossip peers).state.nodes.keys ↔ id = node.uid.id ∨ id ∈ peers.map (·.uid.id) :=
  (aged_fresh (.inr ⟨node, hasGossip, peers, rfl⟩)).known id

theorem length_newWithPeers :
    (Engine.newWithPeers node hasGossip peers).state.nodes.entries.length = (memberIds node peers).length := by
  rw [← length_keys]
  refine ((List.perm_ext_iff_of_nodup (AList.keys_nodup _) (List.nodup_dedup _)).2 fun id => ?_).length_eq
  rw [mem_keys_newWithPeers, List.mem_dedup, List.mem_cons]

theorem graph_newWithPeers :
    (Engine.newWithPeers node hasGossip peers).state.graph = meshEdges (peers.map (·.uid.id)) := by
  simp [Engine.newWithPeers, meshEdges, List.flatMap_map, Function.comp_def]

/-- The eigenvalue of an engine with peers, from that of the package. -/
theorem computeLambda1_newWithPeers
    (hX : X.ComputesWith L F (Engine.newWithPeers node hasGossip peers).state.OwnGraph) (h2 : 2 ≤ (memberIds node peers).length) {q : ℚ}
    (hq : lambda1Of (plainLambda1 L F (cacheOptions F) (Engine.newWithPeers node hasGossip peers).state.nodes
      (meshEdges (peers.map (·.uid.id)))) = some q) :
    computeLambda1 X (Engine.newWithPeers node hasGossip peers).state.nodes
      (Engine.newWithPeers node hasGossip peers).state.graph = q := by
  rw [computeLambda1, if_neg (by rw [length_newWithPeers]; omega), graph_newWithPeers]
  rw [hX _ _ ⟨.refl _, graph_newWithPeers.symm⟩ (by rw [length_newWithPeers]; exact h2)] at hq
  exact Option.some.inj hq

end Peers

/-- **Twenty validators never commit.** An engine with twenty members or more commits no block in any run: the eigenvalue that
it computes is zero, whatever the graph. -/
theorem large_never_commits {node : Node} {hasGossip : Bool} {peers : List Peer}
    (hX : X.ComputesWith L F (Engine.newWithPeers node hasGossip peers).state.OwnGraph) (hL : L.Strict)
    (h20 : 20 ≤ (memberIds node peers).length) (hn : (memberIds node peers).length ≤ 2 ^ 53) {e : Engine}
    {τ : List (Transition Engine Called)} (h : EngineRun X (Engine.newWithPeers node hasGossip peers) τ e) : e.blocks = [] := by
  have h2 : 2 ≤ (memberIds node peers).length := by omega
  have hzero : lambda1Of (plainLambda1 L F (cacheOptions F) (Engine.newWithPeers node hasGossip peers).state.nodes
      (meshEdges (peers.map (·.uid.id)))) = some 0 :=
    lambda1_of_large hL _ (by rw [length_newWithPeers]; exact h20) (by rw [length_newWithPeers]; exact hn) _
  refine fragmented_blocks hX (.inr ⟨node, hasGossip, peers, rfl⟩) h ⟨?_, ?_⟩
  · rw [length_newWithPeers]
    exact h2
  · rw [computeLambda1_newWithPeers hX h2 hzero]
    show (0 : ℚ) < 10 / 100
    norm_num

namespace Sample

theorem numerics_strict : numerics.Strict where
  norm2_zero n := if_pos (by simp)
  solve_nan chol n x hx := (Option.some.inj hx).symm
  dot_nan n ys h0 := if_pos (List.mem_replicate.2 ⟨by omega, rfl⟩)

theorem uid_id_inj {k l : UInt8} (h : (uid k).id = (uid l).id) : k = l := by
  have hlist := congrArg List.Vector.toList (UIDZeroSoulbound.id_inj h)
  exact (List.cons.inj hlist).1

/-- Twenty validators. -/
def twenty : List Peer := (List.range 20).map fun k => peer (UInt8.ofNat k)

theorem length_twenty : (memberIds (node 0) twenty).length = 20 := by
  have hnodup : (twenty.map (·.uid.id)).Nodup := by
    rw [twenty, List.map_map]
    refine (List.nodup_range).map_on fun j hj k hk hjk => ?_
    have hbyte := congrArg UInt8.toNat (uid_id_inj hjk)
    simp only [UInt8.toNat_ofNat', List.mem_range] at hbyte hj hk
    omega
  have hmem : (node 0).uid.id ∈ twenty.map (·.uid.id) :=
    List.mem_map.2 ⟨peer 0, List.mem_map.2 ⟨0, by decide, rfl⟩, rfl⟩
  rw [memberIds, List.dedup_cons_of_mem hmem, hnodup.dedup, List.length_map, twenty, List.length_map, List.length_range]

/-- One of twenty validators after two cycles. -/
theorem twenty_never_commits : (cycledTwice (Engine.newWithPeers (node 0) true twenty)).blocks = [] := by
  obtain ⟨τ, hrun⟩ := run_cycledTwice (Engine.newWithPeers (node 0) true twenty)
  exact large_never_commits (meshPrims_computes _) numerics_strict (by rw [length_twenty]) (by rw [length_twenty]; norm_num) hrun

theorem secondOf_pair {a b : String} (hne : a ≠ b) (ids : List String) :
    secondOf (laplacianOf exactFormat [a, b] (meshEdges ids)) = if a ∈ ids ∧ b ∈ ids then 2 else 0 := by
  have hnodup : [a, b].Nodup := by simp [hne]
  have hentry := entry_laplacianOf (F := exactFormat) hnodup (meshEdges ids) (i := 0) (j := 1) (by simp) (by simp) (by simp)
  rw [lastWeight_mesh] at hentry
  rw [secondOf, hentry]
  change -(-(if a ∈ ids ∧ b ∈ ids then (1 : ℚ) else 0)) * (2 : Nat) = _
  split <;> norm_num

/-- The spectrum of two joined vertices. -/
theorem isSpectrum_joined : IsSpectrum (cliqueLaplacian (Finset.univ : Finset (Fin 2))) ![0, 2] := by
  refine ⟨Fin.monotone_iff_le_succ.2 fun i => ?_, ![![1, 1], ![1, -1]], LinearIndependent.pair_iff.2 fun s t hst => ?_,
    fun i => ?_⟩
  · fin_cases i
    norm_num
  · have h0 := congrFun hst 0
    have h1 := congrFun hst 1
    simp at h0 h1
    constructor <;> linarith
  · ext k
    fin_cases i <;> fin_cases k <;> simp [cliqueLaplacian_mulVec] <;> norm_num

theorem isSpectrum_apart {S : Finset (Fin 2)} (h : S ≠ Finset.univ) : IsSpectrum (cliqueLaplacian S) 0 := by
  have hsingle : ∀ S : Finset (Fin 2), S ≠ Finset.univ → ∀ i ∈ S, S = {i} := by decide
  refine ⟨monotone_const, Pi.basisFun ℝ (Fin 2), (Pi.basisFun ℝ (Fin 2)).linearIndependent, fun i => ?_⟩
  rw [Pi.zero_apply, zero_smul]
  ext k
  rw [cliqueLaplacian_mulVec]
  split
  · next hk =>
    rw [hsingle S h k hk, Finset.card_singleton, Finset.sum_singleton, Nat.cast_one, one_mul, sub_self]
    rfl
  · rfl

/-- The routines resolve the graphs of two nodes. -/
theorem resolves_pair {uids : List String} (hnodup : uids.Nodup) (hlength : uids.length = 2) (ids : List String) :
    numerics.Resolves (1 / 20) (laplacianOf exactFormat uids (meshEdges ids)) := by
  obtain ⟨a, b, rfl⟩ := List.length_eq_two.1 hlength
  have hne : a ≠ b := by simpa using hnodup
  have hM := represents_mesh (F := exactFormat) hnodup (by norm_num) ids
  have hvalues : ∀ i : Fin 2, ([Datum.fin 0, .fin (secondOf (laplacianOf exactFormat [a, b] (meshEdges ids)))])[i.val]? =
      some (.fin ((if a ∈ ids ∧ b ∈ ids then ![0, 2] else 0) i)) := by
    intro i
    rw [secondOf_pair hne]
    by_cases hab : a ∈ ids ∧ b ∈ ids
    · rw [if_pos hab, if_pos hab]
      fin_cases i <;> rfl
    · rw [if_neg hab, if_neg hab]
      fin_cases i <;> rfl
  by_cases hab : a ∈ ids ∧ b ∈ ids
  · have huniv : meshed [a, b] ids = Finset.univ := Finset.eq_univ_iff_forall.2 fun i => by
      fin_cases i
      · exact mem_meshed.2 hab.1
      · exact mem_meshed.2 hab.2
    refine ⟨_, rfl, 2, _, ![0, 2], hM, huniv ▸ isSpectrum_joined, fun i => ⟨_, hvalues i, ?_⟩⟩
    rw [if_pos hab]
    fin_cases i <;> norm_num
  · have happart : meshed [a, b] ids ≠ Finset.univ := fun huniv =>
      hab ⟨mem_meshed.1 (huniv ▸ Finset.mem_univ (0 : Fin 2)), mem_meshed.1 (huniv ▸ Finset.mem_univ (1 : Fin 2))⟩
    refine ⟨_, rfl, 2, _, 0, hM, isSpectrum_apart happart, fun i => ⟨_, hvalues i, ?_⟩⟩
    rw [if_neg hab]
    norm_num

end Sample

/-- **A mesh is never fragmented.** An engine with two to nineteen members, itself on its list of peers, refuses no transition in
any run, if the matrix of its graph is factorised and its eigenvalues are accurate to a twentieth. -/
theorem mesh_never_fragmented {node : Node} {hasGossip : Bool} {peers : List Peer}
    (hX : X.ComputesWith L F (Engine.newWithPeers node hasGossip peers).state.OwnGraph)
    (hself : node.uid.id ∈ peers.map (·.uid.id)) (h2 : 2 ≤ (memberIds node peers).length)
    (h20 : (memberIds node peers).length < 20)
    (hfact : factorisation L F (cacheOptions F) (Engine.newWithPeers node hasGossip peers).state.nodes
      (meshEdges (peers.map (·.uid.id))) ≠ none)
    (hres : L.Resolves (1 / 20) (buildLaplacianWithOrder F (Engine.newWithPeers node hasGossip peers).state.nodes
      (meshEdges (peers.map (·.uid.id)))).1) {e : Engine} {τ : List (Transition Engine Called)}
    (h : EngineRun X (Engine.newWithPeers node hasGossip peers) τ e) (heartbeats : List String) :
    ∃ s, apply X e.state e.state.supervisionRoot heartbeats e.cfg = .ok s := by
  have hall : ∀ id ∈ (Engine.newWithPeers node hasGossip peers).state.nodes.keys, id ∈ peers.map (·.uid.id) := by
    intro id hid
    rcases mem_keys_newWithPeers.1 hid with rfl | hid
    · exact hself
    · exact hid
  obtain ⟨q, hq, hlow⟩ := lambda1_of_mesh (by rw [length_newWithPeers]; exact h2) (by rw [length_newWithPeers]; exact h20)
    hall hfact hres
  refine connected_apply hX (.inr ⟨node, hasGossip, peers, rfl⟩) h ?_ heartbeats
  rintro ⟨-, hlt⟩
  rw [computeLambda1_newWithPeers hX h2 hq] at hlt
  have hlt' : (q : ℝ) < ((10 / 100 : ℚ) : ℝ) := Rat.cast_lt.2 hlt
  have hn : (2 : ℝ) ≤ ((Engine.newWithPeers node hasGossip peers).state.nodes.entries.length : ℝ) := by
    rw [length_newWithPeers]
    exact_mod_cast h2
  norm_num at hlt'
  linarith

namespace Sample

theorem resolves_members {self : UInt8} {others : List Peer} (h : (memberIds (node self) others).length = 2) :
    numerics.Resolves (1 / 20) (buildLaplacianWithOrder exactFormat (Engine.newWithPeers (node self) true others).state.nodes
      (meshEdges (others.map (·.uid.id)))).1 := by
  have hlength : (Engine.newWithPeers (node self) true others).state.nodes.entries.length = 2 := by
    rw [length_newWithPeers, h]
  rw [buildLaplacianWithOrder, if_neg (by omega)]
  exact resolves_pair ((exchangeSort_perm _).nodup_iff.2 (AList.keys_nodup _))
    (by rw [(exchangeSort_perm _).length_eq, length_keys, hlength]) _

/-- A transition of one of two validators after two cycles. -/
theorem two_never_fragmented : ∃ s, apply meshPrims (cycledTwice (two 1)).state
    (cycledTwice (two 1)).state.supervisionRoot [(uid 1).id] (cycledTwice (two 1)).cfg = .ok s := by
  have h2 : (memberIds (node 1) [peer 1, peer 2]).length = 2 := by decide
  obtain ⟨τ, hrun⟩ := run_cycledTwice (two 1)
  exact mesh_never_fragmented (meshPrims_computes _) (by decide) (by rw [h2]) (by rw [h2]; norm_num)
    (fun hnone => (by cases hnone)) (resolves_members h2) hrun _

end Sample

/-- **A node that is not on its own list** commits no block in any run: it is isolated in its own graph. -/
theorem omitted_never_commits {node : Node} {hasGossip : Bool} {peers : List Peer}
    (hX : X.ComputesWith L F (Engine.newWithPeers node hasGossip peers).state.OwnGraph)
    (hself : node.uid.id ∉ peers.map (·.uid.id)) (hpeers : peers ≠ []) (h20 : (memberIds node peers).length < 20)
    (hres : L.Resolves (1 / 20) (buildLaplacianWithOrder F (Engine.newWithPeers node hasGossip peers).state.nodes
      (meshEdges (peers.map (·.uid.id)))).1) {e : Engine} {τ : List (Transition Engine Called)}
    (h : EngineRun X (Engine.newWithPeers node hasGossip peers) τ e) : e.blocks = [] := by
  obtain ⟨p, rest, rfl⟩ := List.exists_cons_of_ne_nil hpeers
  have hp : p.uid.id ∈ (p :: rest).map (·.uid.id) := List.mem_map_of_mem List.mem_cons_self
  have h2 : 2 ≤ (memberIds node (p :: rest)).length := by
    have hsub : [node.uid.id, p.uid.id] ⊆ memberIds node (p :: rest) := by
      simp [memberIds]
    have hnodup : [node.uid.id, p.uid.id].Nodup := by
      simp only [List.nodup_cons, List.mem_singleton, List.not_mem_nil, not_false_eq_true, List.nodup_nil, and_true]
      exact fun heq => hself (heq ▸ hp)
    exact (hnodup.subperm hsub).length_le
  obtain ⟨q, hq, hhigh⟩ := lambda1_of_isolated (by rw [length_newWithPeers]; exact h2)
    (by rw [length_newWithPeers]; exact h20) (mem_keys_newWithPeers.2 (.inl rfl)) hself (mem_keys_newWithPeers.2 (.inr hp)) hp
    (by norm_num) hres
  refine fragmented_blocks hX (.inr ⟨node, hasGossip, p :: rest, rfl⟩) h ⟨?_, ?_⟩
  · rw [length_newWithPeers]
    exact h2
  · rw [computeLambda1_newWithPeers hX h2 hq]
    have hlt : (q : ℝ) < ((10 / 100 : ℚ) : ℝ) := lt_of_le_of_lt hhigh (by norm_num)
    exact Rat.cast_lt.1 hlt

namespace Sample

/-- The third validator, with the first for its only peer, after two cycles. -/
theorem third_never_commits : (cycledTwice (Engine.newWithPeers (node 3) true [peer 1])).blocks = [] := by
  have h2 : (memberIds (node 3) [peer 1]).length = 2 := by decide
  obtain ⟨τ, hrun⟩ := run_cycledTwice (Engine.newWithPeers (node 3) true [peer 1])
  exact omitted_never_commits (meshPrims_computes _) (by decide) (by decide) (by rw [h2]; norm_num) (resolves_members h2) hrun

end Sample

end Gleipnir
