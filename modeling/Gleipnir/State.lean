import Gleipnir.Identity

/-!
# The network state

`state/apply.go`: the transition of the supervision state at each committed block. The graph and the set of nodes never
change in it, so the flag `graphChanged` of the source is always false and the cached factorisation always valid.
-/

namespace Gleipnir

variable (X : Prims)

/-- `state.Config`, without the timing parameters. -/
structure Config where
  decayRate : ℚ
  minLambda1 : ℚ
  lambdaInterval : UInt64
  smtDepth : Nat
  skipEmptyCycles : Bool
  keyRotationLeadTime : UInt64
  minKeyOverlap : UInt64
  minValidators : UInt64
  graceCycles : UInt64
  deriving DecidableEq

/-- `state.DefaultConfig`. -/
def defaultConfig : Config where
  decayRate := 5 / 100
  minLambda1 := 10 / 100
  lambdaInterval := 10
  smtDepth := 256
  skipEmptyCycles := true
  keyRotationLeadTime := 10
  minKeyOverlap := 10
  minValidators := 4
  graceCycles := 10

inductive ApplyError where
  | chainBroken
  | networkFragmented
  deriving DecidableEq

/-- The same keys with new values. -/
def mapNodes (f : String → NodeState → NodeState) (nodes : AList fun _ : String => NodeState) :
    AList fun _ : String => NodeState where
  entries := nodes.entries.map fun n => ⟨n.1, f n.1 n.2⟩
  nodupKeys := by
    have h : (nodes.entries.map fun n => (⟨n.1, f n.1 n.2⟩ : Sigma fun _ : String => NodeState)).keys =
        nodes.entries.keys := by simp [List.keys, Function.comp_def]
    show List.Nodup (List.keys _)
    rw [h]
    exact nodes.nodupKeys

theorem lookup_mapNodes (f : String → NodeState → NodeState) (nodes : AList fun _ : String => NodeState) (id : String) :
    (mapNodes f nodes).lookup id = (nodes.lookup id).map (f id) := List.dlookup_map₂ id

/-- One node after a cycle: a heartbeat restores it, silence decays it. -/
def beat (heartbeats : List String) (cfg : Config) (uid : String) (node : NodeState) : NodeState :=
  if uid ∈ heartbeats then { node with consecutive := node.consecutive + 1, status := 1 }
  else
    let status := node.status - cfg.decayRate
    { node with consecutive := 0, status := if status < 0 then 0 else status }

/-- `IncrementalLaplacian.Compute`. -/
def computeLambda1 (nodes : AList fun _ : String => NodeState) (graph : List Edge) : ℚ :=
  if nodes.entries.length < 2 then 0 else X.fiedler nodes graph

/-- The value of `Lambda1` in the next cycle: recomputed every `LambdaInterval` cycles, and as long as it is zero. -/
def nextLambda1 (s : NetworkState) (nodes : AList fun _ : String => NodeState) (cfg : Config) : ℚ :=
  if cfg.lambdaInterval = 0 ∨ s.lambda1 = 0 ∨ (s.cycle + 1) % cfg.lambdaInterval = 0 then
    computeLambda1 X nodes s.graph
  else s.lambda1

/-- `ComputeSupervisionRoot`. -/
def computeSupervisionRoot (s : NetworkState) : Hash := X.blake3 (X.cborState s.cycle s.nodes s.graph s.lambda1)

/-- `state.Apply`. -/
def apply (s : NetworkState) (prevRoot : Hash) (heartbeats : List String) (cfg : Config) :
    Except ApplyError NetworkState :=
  if 0 < s.cycle ∧ prevRoot ≠ s.supervisionRoot then .error .chainBroken
  else
    let nodes := mapNodes (beat heartbeats cfg) s.nodes
    let lambda1 := nextLambda1 X s nodes cfg
    if 2 ≤ nodes.entries.length ∧ lambda1 < cfg.minLambda1 then .error .networkFragmented
    else
      let next := { s with cycle := s.cycle + 1, nodes, lambda1, supervisionRoot := Arr.zero 32 }
      .ok { next with supervisionRoot := computeSupervisionRoot X next }

variable {s s' : NetworkState} {prevRoot : Hash} {heartbeats : List String} {cfg : Config}

/-- A transition counts one cycle and beats the nodes; the graph and the validators stay. -/
theorem apply_eq (h : apply X s prevRoot heartbeats cfg = .ok s') : ∃ lambda1 supervisionRoot, s' = { s with
      cycle := s.cycle + 1, nodes := mapNodes (beat heartbeats cfg) s.nodes, lambda1, supervisionRoot } := by
  unfold apply at h
  split at h
  · cases h
  · dsimp only at h
    split at h
    · cases h
    · cases h
      exact ⟨_, _, rfl⟩

theorem apply_ok (h : apply X s prevRoot heartbeats cfg = .ok s') :
    s'.cycle = s.cycle + 1 ∧ s'.validatorSet = s.validatorSet := by
  obtain ⟨lambda1, root, rfl⟩ := apply_eq X h
  exact ⟨rfl, rfl⟩

theorem apply_nodes (h : apply X s prevRoot heartbeats cfg = .ok s') : s'.nodes = mapNodes (beat heartbeats cfg) s.nodes := by
  obtain ⟨lambda1, root, rfl⟩ := apply_eq X h
  rfl

end Gleipnir
