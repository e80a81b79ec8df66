import Gleipnir.Lib.ExchangeSort
import Gleipnir.Lib.Floats
import Gleipnir.State
import Mathlib.Data.List.Nodup
import Mathlib.Data.String.Basic

/-!
# The Laplacian of the network graph

`state/laplacian.go`: the matrix that `Apply` takes its eigenvalue from, and the cache around it. Numbers are the data of
`Lib.Floats`; what the package takes from its libraries is `Numerics`.

* `laplacian_canonical`: the matrix is that of the identifiers in ascending order, whatever the order of the map it is built
  from, and an entry off the diagonal is the weight of the last edge between its two nodes.
* `compute_eq_plain`: the cache is transparent over a class of graphs that its key tells apart (`Told`).
* `applyAll_eq`: transitions over such a class have the results that they have without a cache.
-/

namespace Gleipnir

open Ieee ExchangeSort

/-! ## What the package calls -/

/-- `mat.SymDense`, row by row. -/
abbrev SymDense : Type := List (List Datum)

/-- The routines of `gonum/mat` and `fmt`. -/
structure Numerics where
  /-- A `mat.Cholesky`. -/
  Chol : Type
  /-- `Cholesky.Factorize`; `none` when it reports that the matrix is not positive definite. -/
  factorize : SymDense → Option Chol
  /-- `Cholesky.SolveVecTo`. -/
  solveVecTo : Chol → List Datum → Option (List Datum)
  mulVec : SymDense → List Datum → List Datum
  dot : List Datum → List Datum → Datum
  /-- `mat.Norm(b, 2)`. -/
  norm2 : List Datum → Datum
  /-- `EigenSym.Factorize` with `Values`, in ascending order. -/
  eigenSym : SymDense → Option (List Datum)
  /-- The verb `%.6f`. -/
  formatWeight : ℚ → String

variable (X : Prims) (L : Numerics) (F : Format)

/-- The nodes of a network state. -/
abbrev Nodes : Type := AList fun _ : String => NodeState

/-! ## The matrix -/

/-- `w` with the entries `(i, j)` and `(j, i)` set. -/
def setBoth (w : Nat → Nat → Datum) (i j : Nat) (x : Datum) : Nat → Nat → Datum :=
  fun a b => if a = i ∧ b = j ∨ a = j ∧ b = i then x else w a b

/-- The weight of one edge; an edge with an end that is not listed is passed over. -/
def setEdge (uids : List String) (w : Nat → Nat → Datum) (edge : Edge) : Nat → Nat → Datum :=
  if edge.source ∈ uids ∧ edge.target ∈ uids then
    setBoth w (uids.idxOf edge.source) (uids.idxOf edge.target) (.fin edge.weight)
  else w

def edgeWeights (uids : List String) (edges : List Edge) : Nat → Nat → Datum :=
  edges.foldl (setEdge uids) fun _ _ => .fin 0

/-- The sum of the weights of a row, off the diagonal. -/
def degree (w : Nat → Nat → Datum) (n i : Nat) : Datum :=
  Datum.sum F (((List.range n).filter (· ≠ i)).map (w i))

/-- The matrix over the listed nodes. `SetSym` keeps one entry for `(i, j)` and `(j, i)`, and the row with the greater index
writes it last. -/
def laplacianOf (uids : List String) (edges : List Edge) : SymDense :=
  let w := edgeWeights uids edges
  (List.range uids.length).map fun i => (List.range uids.length).map fun j =>
    if i = j then degree F w uids.length i else (w (max i j) (min i j)).neg

/-- `BuildLaplacianWithOrder`. -/
def buildLaplacianWithOrder (nodes : Nodes) (edges : List Edge) : SymDense × List String :=
  if nodes.entries.length < 2 then ([], [])
  else (laplacianOf F (exchangeSort nodes.keys) edges, exchangeSort nodes.keys)

/-- The matrix that is factorised: `shift` is added to the diagonal. -/
def shifted (l : SymDense) (shift : Datum) : SymDense :=
  l.mapIdx fun i row => row.mapIdx fun j v => if i = j then Datum.add F v shift else v

/-- `hashGraphStructure`: the number of nodes and the edges. -/
def hashGraphStructure (edges : List Edge) (nodes : Nodes) : String :=
  edges.foldl (fun h e => h ++ "|" ++ e.source ++ "->" ++ e.target ++ ":" ++ L.formatWeight e.weight)
    (toString nodes.entries.length)

/-! ## The eigenvalue -/

/-- `Lambda1Options`, without `Verbose`. -/
structure Lambda1Options where
  maxIter : Int
  tolerance : Datum
  shift : Datum
  deriving DecidableEq

/-- `DefaultLambda1Options`. -/
def defaultLambda1Options : Lambda1Options := ⟨300, F.round (1 / 10 ^ 8), F.round (1 / 10 ^ 2)⟩

/-- What `NewIncrementalLaplacian` puts in the place of options that are not positive. -/
def Lambda1Options.completed (opts : Lambda1Options) : Lambda1Options where
  maxIter := if opts.maxIter ≤ 0 then 300 else opts.maxIter
  tolerance := if opts.tolerance.le (.fin 0) then F.round (1 / 10 ^ 8) else opts.tolerance
  shift := if opts.shift.le (.fin 0) then F.round (1 / 10 ^ 2) else opts.shift

/-- The options of a cache that is made by `DefaultIncrementalLaplacian`. -/
abbrev cacheOptions : Lambda1Options := (defaultLambda1Options F).completed F

/-- The projection onto the complement of the vector of ones, scaled to norm one. -/
def orthonormalise (b : List Datum) : List Datum :=
  let mean := Datum.div F (Datum.sum F b) (F.round b.length)
  let c := b.map fun x => Datum.sub F x mean
  c.map fun x => Datum.mul F (Datum.div F (.fin 1) (L.norm2 c)) x

/-- The loop of `computeLambda1PowerIterWithFact`, with that many iterations left. -/
def powerIter (l : SymDense) (chol : L.Chol) (opts : Lambda1Options) : Nat → List Datum → Datum → Datum
  | 0, _, _ => .fin 0
  | k + 1, b, lambda =>
    match L.solveVecTo chol b with
    | none => .fin 0
    | some x =>
      let xTLx := L.dot x (L.mulVec l x)
      let xTx := L.dot x b
      if xTx.eq (.fin 0) then .fin 0
      else
        let lambdaNew := Datum.div F xTLx xTx
        let relDiff := Datum.div F (Datum.sub F lambdaNew lambda).abs (lambdaNew.abs.max (.fin 1))
        if (Datum.fin 0).lt lambda && relDiff.lt opts.tolerance then lambdaNew
        else powerIter l chol opts k (orthonormalise L F x) lambdaNew

/-- `computeLambda1PowerIterWithFact`: it starts from the vector of ones. -/
def computeLambda1PowerIterWithFact (l : SymDense) (chol : L.Chol) (opts : Lambda1Options) : Datum :=
  powerIter L F l chol opts opts.maxIter.toNat (orthonormalise L F (List.replicate l.length (.fin 1))) (.fin 0)

/-- `computeLambda1EigenSym`. -/
def computeLambda1EigenSym (l : SymDense) : Datum :=
  match L.eigenSym l with
  | none => .fin 0
  | some values =>
    match values[1]? with
    | none => .fin 0
    | some lambda1 => if lambda1.lt (.fin 0) then .fin 0 else lambda1

/-- `computeLambda1FromCache`, of the matrix, the factorisation and the options of the cache. -/
def computeLambda1FromCache (l : SymDense) (chol : L.Chol) (opts : Lambda1Options) : Datum :=
  if l.length < 2 then .fin 0
  else if l.length < 20 then computeLambda1EigenSym L l
  else computeLambda1PowerIterWithFact L F l chol opts

/-! ## The cache -/

/-- `state.IncrementalLaplacian`, without the map of indices, which nothing reads. The nil matrix is the empty one. -/
structure IncrementalLaplacian where
  laplacian : SymDense
  cholFact : Option L.Chol
  shift : Datum
  nodeOrder : List String
  isDirty : Bool
  opts : Lambda1Options
  lastLambda1 : Datum
  lastGraphHash : String

inductive LaplacianError where
  | notPositiveDefinite
  deriving DecidableEq

namespace IncrementalLaplacian

variable {L}

/-- `NewIncrementalLaplacian`. -/
def new (opts : Lambda1Options) : IncrementalLaplacian L where
  laplacian := []
  cholFact := none
  shift := .fin 0
  nodeOrder := []
  isDirty := false
  opts := opts.completed F
  lastLambda1 := .fin 0
  lastGraphHash := ""

/-- `DefaultIncrementalLaplacian`. -/
def default : IncrementalLaplacian L := new F (defaultLambda1Options F)

/-- `MarkDirty`. -/
def markDirty (il : IncrementalLaplacian L) : IncrementalLaplacian L := { il with isDirty := true, cholFact := none }

/-- The factorisation that serves for a graph with this key. -/
def cached (il : IncrementalLaplacian L) (graphHash : String) : Option L.Chol :=
  if graphHash = il.lastGraphHash ∧ il.isDirty = false then il.cholFact else none

/-- `Compute`. When the factorisation fails, the new matrix and key are in place beside the old factorisation. -/
def compute (il : IncrementalLaplacian L) (nodes : Nodes) (edges : List Edge) :
    Except LaplacianError Datum × IncrementalLaplacian L :=
  if nodes.entries.length < 2 then (.ok (.fin 0), { il with lastLambda1 := .fin 0 })
  else
    let graphHash := hashGraphStructure L edges nodes
    match il.cached graphHash with
    | some chol =>
      let lambda1 := computeLambda1FromCache L F il.laplacian chol il.opts
      (.ok lambda1, { il with lastLambda1 := lambda1 })
    | none =>
      let (l, order) := buildLaplacianWithOrder F nodes edges
      let il := { il with
        laplacian := l, nodeOrder := order, shift := il.opts.shift, isDirty := false, lastGraphHash := graphHash }
      match L.factorize (shifted F l il.shift) with
      | none => (.error .notPositiveDefinite, il)
      | some chol =>
        let lambda1 := computeLambda1FromCache L F l chol il.opts
        (.ok lambda1, { il with cholFact := some chol, lastLambda1 := lambda1 })

end IncrementalLaplacian

/-! ## The matrix does not depend on the order of the map -/

section Matrix

variable {F} {nodes nodes' : Nodes} {edges : List Edge}

theorem length_keys (nodes : Nodes) : nodes.keys.length = nodes.entries.length :=
  List.length_map _

theorem buildLaplacianWithOrder_eq_of_perm (h : nodes.keys.Perm nodes'.keys) (edges : List Edge) :
    buildLaplacianWithOrder F nodes edges = buildLaplacianWithOrder F nodes' edges := by
  have hlength : nodes.entries.length = nodes'.entries.length := by
    rw [← length_keys, ← length_keys, h.length_eq]
  simp only [buildLaplacianWithOrder, hlength, exchangeSort_eq_of_perm h]

/-! ### Its entries -/

/-- The edge runs between the two nodes, in either direction. -/
def Edge.joins (e : Edge) (a b : String) : Bool := e.source = a && e.target = b || e.source = b && e.target = a

/-- The weight of the last edge between two nodes. -/
def lastWeight (edges : List Edge) (a b : String) : Datum :=
  match edges.reverse.find? (·.joins a b) with
  | none => .fin 0
  | some e => .fin e.weight

variable {uids : List String} {i j : Nat}

theorem getElem_eq_iff (h : uids.Nodup) (hi : i < uids.length) (a : String) : uids[i] = a ↔ a ∈ uids ∧ uids.idxOf a = i := by
  constructor
  · rintro rfl
    exact ⟨List.getElem_mem hi, h.idxOf_getElem i hi⟩
  · rintro ⟨ha, rfl⟩
    exact List.getElem_idxOf hi

/-- **One edge** sets the weight of the two nodes it joins. -/
theorem setEdge_apply (h : uids.Nodup) (w : Nat → Nat → Datum) (e : Edge) (hi : i < uids.length) (hj : j < uids.length) :
    setEdge uids w e i j = if e.joins uids[i] uids[j] then .fin e.weight else w i j := by
  have hjoins : e.joins uids[i] uids[j] = true ↔ (e.source ∈ uids ∧ e.target ∈ uids) ∧
      (i = uids.idxOf e.source ∧ j = uids.idxOf e.target ∨ i = uids.idxOf e.target ∧ j = uids.idxOf e.source) := by
    simp only [Edge.joins, Bool.or_eq_true, Bool.and_eq_true, decide_eq_true_eq, eq_comm (a := e.source),
      eq_comm (a := e.target), getElem_eq_iff h hi, getElem_eq_iff h hj, eq_comm (b := i), eq_comm (b := j)]
    tauto
  unfold setEdge
  by_cases hmem : e.source ∈ uids ∧ e.target ∈ uids
  · rw [if_pos hmem, setBoth]
    exact if_congr (by rw [hjoins, and_iff_right hmem]) rfl rfl
  · rw [if_neg hmem, if_neg fun hj => hmem (hjoins.1 hj).1]

theorem edgeWeights_eq (h : uids.Nodup) (edges : List Edge) (hi : i < uids.length) (hj : j < uids.length) :
    edgeWeights uids edges i j = lastWeight edges uids[i] uids[j] := by
  induction edges using List.reverseRecOn with
  | nil => rfl
  | append_singleton edges e ih =>
    have hstep : edgeWeights uids (edges ++ [e]) = setEdge uids (edgeWeights uids edges) e := List.foldl_concat _ _ _ _
    rw [hstep, setEdge_apply h _ e hi hj, ih]
    unfold lastWeight
    rw [List.reverse_append, List.reverse_singleton, List.singleton_append, List.find?_cons]
    cases e.joins uids[i] uids[j] with
    | true => rfl
    | false => rfl

theorem lastWeight_comm (edges : List Edge) (a b : String) : lastWeight edges a b = lastWeight edges b a := by
  have hjoins : ∀ e : Edge, e.joins a b = e.joins b a := fun e => Bool.or_comm _ _
  simp only [lastWeight, hjoins]

/-- The entry of a matrix. -/
def SymDense.entry (l : SymDense) (i j : Nat) : Option Datum := l[i]?.bind (·[j]?)

/-- The order of a Laplacian is that of the identifiers. -/
theorem order_ascending (nodes : Nodes) :
    (exchangeSort nodes.keys).Pairwise (· < ·) := by
  have hnodup : (exchangeSort nodes.keys).Nodup := (exchangeSort_perm _).nodup_iff.2 nodes.keys_nodup
  exact (exchangeSort_pairwise _).imp₂ (fun _ _ hle hne => lt_of_le_of_ne hle hne) hnodup

/-- A row of weights is the list of the weights to the other nodes. -/
theorem row_eq (h : uids.Nodup) (edges : List Edge) (hi : i < uids.length) :
    ((List.range uids.length).filter (· ≠ i)).map (edgeWeights uids edges i) =
      (uids.filter (· ≠ uids[i])).map (lastWeight edges uids[i]) := by
  have hget : ∀ j (hj : j < uids.length), uids.getD j "" = uids[j] := fun j hj => by
    rw [List.getD_eq_getElem?_getD, List.getElem?_eq_getElem hj, Option.getD_some]
  have huids : (List.range uids.length).map (fun j => uids.getD j "") = uids :=
    List.ext_getElem (by simp) fun j _ hj => by rw [List.getElem_map, List.getElem_range, hget j hj]
  have hfilter : uids.filter (· ≠ uids[i]) =
      ((List.range uids.length).filter (· ≠ i)).map fun j => uids.getD j "" := by
    refine (congrArg (List.filter _) huids.symm).trans ?_
    rw [List.filter_map]
    refine congrArg _ (List.filter_congr fun j hj => ?_)
    have hj' : j < uids.length := List.mem_range.1 hj
    rw [Function.comp_apply, hget j hj', decide_eq_decide, not_iff_not, h.getElem_inj_iff]
  rw [hfilter, List.map_map]
  refine List.map_congr_left fun j hj => ?_
  have hj' : j < uids.length := List.mem_range.1 (List.mem_filter.1 hj).1
  rw [Function.comp_apply, hget j hj', edgeWeights_eq h edges hi hj']

theorem entry_laplacianOf (h : uids.Nodup) (edges : List Edge) (hi : i < uids.length) (hj : j < uids.length) (hne : i ≠ j) :
    (laplacianOf F uids edges).entry i j = some (lastWeight edges uids[i] uids[j]).neg := by
  have hw : edgeWeights uids edges (max i j) (min i j) = lastWeight edges uids[i] uids[j] := by
    rcases Nat.le_total i j with hle | hle
    · simp only [Nat.max_eq_right hle, Nat.min_eq_left hle, edgeWeights_eq h edges hj hi, lastWeight_comm edges]
    · simp only [Nat.max_eq_left hle, Nat.min_eq_right hle, edgeWeights_eq h edges hi hj]
  simp [SymDense.entry, laplacianOf, hi, hj, hne, hw]

theorem diagonal_laplacianOf (h : uids.Nodup) (edges : List Edge) (hi : i < uids.length) :
    (laplacianOf F uids edges).entry i i =
      some (Datum.sum F ((uids.filter (· ≠ uids[i])).map (lastWeight edges uids[i]))) := by
  rw [← row_eq h edges hi]
  simp [SymDense.entry, laplacianOf, degree, hi]

/-- **The Laplacian of a graph.** For any number of nodes from two on and any edges, `BuildLaplacianWithOrder` orders the
identifiers, whatever the order in which the map is read. Off the diagonal stand the weights of the last edges between two
nodes, negated, and on the diagonal the sum of the weights between a node and the others. -/
theorem laplacian_canonical (F : Format) (nodes : Nodes) (h : 2 ≤ nodes.entries.length)
    (edges : List Edge) : ∃ l order, buildLaplacianWithOrder F nodes edges = (l, order) ∧
      order.Perm nodes.keys ∧ order.Pairwise (· < ·) ∧ l.length = order.length ∧
      (∀ nodes' : Nodes, nodes'.keys.Perm nodes.keys →
        buildLaplacianWithOrder F nodes' edges = (l, order)) ∧
      (∀ i j (hi : i < order.length) (hj : j < order.length), i ≠ j →
        l.entry i j = some (lastWeight edges order[i] order[j]).neg ∧ l.entry i j = l.entry j i) ∧
      ∀ i (hi : i < order.length), l.entry i i =
        some (Datum.sum F ((order.filter (· ≠ order[i])).map (lastWeight edges order[i]))) := by
  have hnodup : (exchangeSort nodes.keys).Nodup := (exchangeSort_perm _).nodup_iff.2 nodes.keys_nodup
  have hbuild : buildLaplacianWithOrder F nodes edges =
      (laplacianOf F (exchangeSort nodes.keys) edges, exchangeSort nodes.keys) := if_neg (Nat.not_lt.2 h)
  refine ⟨_, _, hbuild, exchangeSort_perm _, order_ascending nodes, by simp [laplacianOf], fun nodes' hperm => ?_,
    fun i j hi hj hne => ?_, fun i hi => diagonal_laplacianOf hnodup edges hi⟩
  · rw [buildLaplacianWithOrder_eq_of_perm hperm, hbuild]
  · refine ⟨entry_laplacianOf hnodup edges hi hj hne, ?_⟩
    rw [entry_laplacianOf hnodup edges hi hj hne, entry_laplacianOf hnodup edges hj hi (Ne.symm hne), lastWeight_comm]

end Matrix

namespace Sample

/-- A format that rounds nothing. -/
def exactFormat : Format := ⟨.fin, fun _ _ => rfl⟩

/-- Two nodes, in descending order. -/
def descending : Nodes :=
  (AList.singleton "a" { uid := Arr.zero 16, status := 1 }).insert "b" { uid := Arr.zero 16, status := 1 }

/-- The Laplacian of two nodes that are joined twice. -/
theorem descending_canonical : ∃ l order, buildLaplacianWithOrder exactFormat descending [⟨"a", "b", 1⟩, ⟨"b", "a", 3⟩] =
    (l, order) ∧ order.Perm descending.keys ∧ order.Pairwise (· < ·) ∧ l.length = order.length := by
  obtain ⟨l, order, hbuild, hperm, hasc, hlength, -⟩ :=
    laplacian_canonical exactFormat descending (by decide) [⟨"a", "b", 1⟩, ⟨"b", "a", 3⟩]
  exact ⟨l, order, hbuild, hperm, hasc, hlength⟩

end Sample

/-! ## The cache is transparent -/

section Cache

variable {L F} {nodes nodes' : Nodes} {edges edges' : List Edge} {opts : Lambda1Options}
variable {P : Nodes → List Edge → Prop}

variable (L F) in
/-- The factorisation of the matrix of a graph. -/
def factorisation (opts : Lambda1Options) (nodes : Nodes) (edges : List Edge) : Option L.Chol :=
  L.factorize (shifted F (buildLaplacianWithOrder F nodes edges).1 opts.shift)

variable (L F) in
/-- The eigenvalue of a graph, from scratch. -/
def plainLambda1 (opts : Lambda1Options) (nodes : Nodes) (edges : List Edge) :
    Except LaplacianError Datum :=
  if nodes.entries.length < 2 then .ok (.fin 0)
  else match factorisation L F opts nodes edges with
    | none => .error .notPositiveDefinite
    | some chol => .ok (computeLambda1FromCache L F (buildLaplacianWithOrder F nodes edges).1 chol opts)

variable (L F) in
/-- The key of the cache tells the graphs of a class apart, and the factorisation fails for all of them or for none. -/
structure Told (opts : Lambda1Options) (P : Nodes → List Edge → Prop) : Prop where
  same : ∀ {nodes edges nodes' edges'}, P nodes edges → P nodes' edges' →
    hashGraphStructure L edges nodes = hashGraphStructure L edges' nodes' →
      (buildLaplacianWithOrder F nodes edges).1 = (buildLaplacianWithOrder F nodes' edges').1
  fails : ∀ {nodes edges nodes' edges'}, P nodes edges → P nodes' edges' →
    factorisation L F opts nodes edges = none → factorisation L F opts nodes' edges' = none

namespace IncrementalLaplacian

variable {il : IncrementalLaplacian L}

variable (F) in
/-- What the cache holds was computed from this graph. -/
structure HoldsFor (il : IncrementalLaplacian L) (nodes : Nodes) (edges : List Edge) : Prop where
  laplacian : il.laplacian = (buildLaplacianWithOrder F nodes edges).1
  key : il.lastGraphHash = hashGraphStructure L edges nodes
  cholFact : il.cholFact = factorisation L F il.opts nodes edges

variable (F) in
/-- A cache with a factorisation holds what was computed from a graph of the class. -/
def Sound (opts : Lambda1Options) (P : Nodes → List Edge → Prop)
    (il : IncrementalLaplacian L) : Prop :=
  il.opts = opts ∧ (il.cholFact = none ∨ ∃ nodes edges, P nodes edges ∧ il.HoldsFor F nodes edges)

variable (L F P) in
theorem sound_default : Sound F (cacheOptions F) P (default F : IncrementalLaplacian L) := ⟨rfl, .inl rfl⟩

/-- What is served from the cache is the factorisation of the graph in question. -/
theorem Sound.of_cached (h : Sound F opts P il) (ht : Told L F opts P) (hP : P nodes edges) {chol : L.Chol}
    (hc : il.cached (hashGraphStructure L edges nodes) = some chol) :
    il.laplacian = (buildLaplacianWithOrder F nodes edges).1 ∧ factorisation L F opts nodes edges = some chol := by
  obtain ⟨rfl, hsound⟩ := h
  unfold cached at hc
  split at hc
  · next hkey =>
    rcases hsound with hnone | ⟨nodes₀, edges₀, hP₀, hl, hk, hf⟩
    · rw [hc] at hnone
      cases hnone
    · have hsame := ht.same hP hP₀ (hkey.1.trans hk)
      refine ⟨hl.trans hsame.symm, ?_⟩
      rw [factorisation, hsame, ← factorisation, ← hf, hc]
  · cases hc

/-- **One computation** gives what a computation from scratch gives, and keeps the cache sound. -/
theorem compute_eq_plain (h : Sound F opts P il) (ht : Told L F opts P) (hP : P nodes edges) :
    (il.compute F nodes edges).1 = plainLambda1 L F opts nodes edges ∧ Sound F opts P (il.compute F nodes edges).2 := by
  obtain ⟨rfl, hsound⟩ := h
  unfold compute plainLambda1
  by_cases h2 : nodes.entries.length < 2
  · rw [if_pos h2, if_pos h2]
    refine ⟨rfl, rfl, hsound.imp id ?_⟩
    rintro ⟨nodes₀, edges₀, hP₀, hl, hk, hf⟩
    exact ⟨nodes₀, edges₀, hP₀, hl, hk, hf⟩
  · rw [if_neg h2, if_neg h2]
    dsimp only
    cases hc : il.cached (hashGraphStructure L edges nodes) with
    | some chol =>
      obtain ⟨hl, hf⟩ := Sound.of_cached ⟨rfl, hsound⟩ ht hP hc
      rw [hf]
      dsimp only
      refine ⟨by rw [hl], rfl, hsound.imp id ?_⟩
      rintro ⟨nodes₀, edges₀, hP₀, hl, hk, hf⟩
      exact ⟨nodes₀, edges₀, hP₀, hl, hk, hf⟩
    | none =>
      rw [factorisation]
      dsimp only
      cases hf : L.factorize (shifted F (buildLaplacianWithOrder F nodes edges).1 il.opts.shift) with
      | none =>
        refine ⟨rfl, rfl, .inl ?_⟩
        -- a factorisation in the cache would be one of a graph of the class
        rcases hsound with hnone | ⟨nodes₀, edges₀, hP₀, -, -, hf₀⟩
        · exact hnone
        · exact hf₀.trans (ht.fails hP hP₀ hf)
      | some chol => exact ⟨rfl, rfl, .inr ⟨nodes, edges, hP, rfl, rfl, hf.symm⟩⟩

end IncrementalLaplacian

end Cache

/-! ## Transitions with a cache -/

/-- The value of `Lambda1` after `Compute`, whose error is dropped; `none` when it is not a number of the state. -/
def lambda1Of : Except LaplacianError Datum → Option ℚ
  | .error _ => some 0
  | .ok (.fin q) => some q
  | .ok _ => none

/-- `graphChanged`. -/
def graphChanged (nodes nodes' : Nodes) (edges edges' : List Edge) : Bool :=
  nodes'.entries.length ≠ nodes.entries.length || edges'.length ≠ edges.length ||
    (edges'.zip edges).any fun p => p.1.weight ≠ p.2.weight

/-- The end of `Apply`, from the new nodes and `lambda1`. -/
def concludeApply (s : NetworkState) (nodes : Nodes) (cfg : Config) (lambda1 : ℚ) :
    Except ApplyError NetworkState :=
  if 2 ≤ nodes.entries.length ∧ lambda1 < cfg.minLambda1 then .error .networkFragmented
  else
    let next := { s with cycle := s.cycle + 1, nodes, lambda1, supervisionRoot := Arr.zero 32 }
    .ok { next with supervisionRoot := computeSupervisionRoot X next }

/-- The arguments of a transition. -/
structure ApplyCall where
  s : NetworkState
  prevRoot : Hash
  heartbeats : List String
  cfg : Config

namespace ApplyCall

def nodes (c : ApplyCall) : Nodes := mapNodes (beat c.heartbeats c.cfg) c.s.nodes

/-- `recompute`. -/
def recomputes (c : ApplyCall) : Bool :=
  c.cfg.lambdaInterval = 0 || c.s.lambda1 = 0 || (c.s.cycle + 1) % c.cfg.lambdaInterval = 0

end ApplyCall

variable {L}

/-- `state.Apply`, with the cache that it is given. -/
def applyWith (il : IncrementalLaplacian L) (c : ApplyCall) :
    Option (Except ApplyError NetworkState) × IncrementalLaplacian L :=
  if 0 < c.s.cycle ∧ c.prevRoot ≠ c.s.supervisionRoot then (some (.error .chainBroken), il)
  else
    let changed := graphChanged c.s.nodes c.nodes c.s.graph c.s.graph
    let il := if changed then il.markDirty else il
    if changed || c.recomputes then
      let (lambda1, il) := il.compute F c.nodes c.s.graph
      ((lambda1Of lambda1).map (concludeApply X c.s c.nodes c.cfg), il)
    else (some (concludeApply X c.s c.nodes c.cfg c.s.lambda1), il)

/-- Transitions one after the other, with one cache. -/
def applyAll : IncrementalLaplacian L → List ApplyCall → List (Option (Except ApplyError NetworkState))
  | _, [] => []
  | il, c :: calls => (applyWith X F il c).1 :: applyAll (applyWith X F il c).2 calls

variable (L) in
/-- The eigenvalue that the model of a network takes is, for the graphs of a class, the one that the package computes. -/
def Prims.ComputesWith (P : Nodes → List Edge → Prop) : Prop :=
  ∀ nodes edges, P nodes edges → 2 ≤ nodes.entries.length →
    lambda1Of (plainLambda1 L F (cacheOptions F) nodes edges) = some (X.fiedler nodes edges)

section Transitions

variable {X F} {il : IncrementalLaplacian L} {P : Nodes → List Edge → Prop}
variable {opts : Lambda1Options}

/-- A transition keeps the nodes and the edges. -/
theorem graphChanged_nodes (c : ApplyCall) : graphChanged c.s.nodes c.nodes c.s.graph c.s.graph = false := by
  have hany : (c.s.graph.zip c.s.graph).any (fun p => p.1.weight ≠ p.2.weight) = false := by
    rw [List.any_eq_false]
    intro p hp
    have hself : p.1 = p.2 := by
      obtain ⟨i, hi, rfl⟩ := List.getElem_of_mem hp
      rw [List.getElem_zip]
    simp [hself]
  simp only [graphChanged, hany, ApplyCall.nodes, mapNodes, List.length_map]
  simp

theorem apply_eq_conclude (c : ApplyCall) (hchain : ¬(0 < c.s.cycle ∧ c.prevRoot ≠ c.s.supervisionRoot)) :
    apply X c.s c.prevRoot c.heartbeats c.cfg =
      concludeApply X c.s c.nodes c.cfg (nextLambda1 X c.s c.nodes c.cfg) := by
  rw [apply, if_neg hchain]
  rfl

/-- **One transition** gives with a sound cache what it gives without one, and leaves the cache sound. -/
theorem applyWith_eq (hX : X.ComputesWith L F P) (h : il.Sound F (cacheOptions F) P) (ht : Told L F (cacheOptions F) P)
    {c : ApplyCall} (hP : P c.nodes c.s.graph) :
    (applyWith X F il c).1 = some (apply X c.s c.prevRoot c.heartbeats c.cfg) ∧
      (applyWith X F il c).2.Sound F (cacheOptions F) P := by
  unfold applyWith
  by_cases hchain : 0 < c.s.cycle ∧ c.prevRoot ≠ c.s.supervisionRoot
  · rw [if_pos hchain, apply, if_pos hchain]
    exact ⟨rfl, h⟩
  rw [if_neg hchain, apply_eq_conclude c hchain, graphChanged_nodes]
  dsimp only
  rw [if_neg Bool.false_ne_true, Bool.false_or]
  by_cases hre : c.recomputes = true
  · obtain ⟨hlambda, hsound⟩ := IncrementalLaplacian.compute_eq_plain h ht hP
    rw [if_pos hre, hlambda]
    refine ⟨?_, hsound⟩
    have hnext : nextLambda1 X c.s c.nodes c.cfg = computeLambda1 X c.nodes c.s.graph := if_pos (by
      simpa [ApplyCall.recomputes, or_assoc] using hre)
    rw [hnext, computeLambda1]
    by_cases h2 : c.nodes.entries.length < 2
    · rw [plainLambda1, if_pos h2, if_pos h2]
      rfl
    · rw [hX _ _ hP (Nat.not_lt.1 h2), if_neg h2]
      rfl
  · have hnext : nextLambda1 X c.s c.nodes c.cfg = c.s.lambda1 := if_neg (by
      simpa [ApplyCall.recomputes, or_assoc] using hre)
    rw [if_neg hre, hnext]
    exact ⟨rfl, h⟩

/-- **Transitions one after the other** have the results that they have without a cache, as long as their graphs are of a class
that the key tells apart. -/
theorem applyAll_eq (hX : X.ComputesWith L F P) (h : il.Sound F (cacheOptions F) P) (ht : Told L F (cacheOptions F) P)
    {calls : List ApplyCall} (hP : ∀ c ∈ calls, P c.nodes c.s.graph) :
    applyAll X F il calls = calls.map fun c => some (apply X c.s c.prevRoot c.heartbeats c.cfg) := by
  induction calls generalizing il with
  | nil => rfl
  | cons c calls ih =>
    obtain ⟨hc, hsound⟩ := applyWith_eq hX h ht (hP c List.mem_cons_self)
    rw [applyAll, hc, List.map_cons, ih hsound fun c' hc' => hP c' (List.mem_cons_of_mem c hc')]

/-- The identifiers and the edges of a state. -/
def NetworkState.OwnGraph (s : NetworkState) (nodes : Nodes) (edges : List Edge) : Prop :=
  nodes.keys.Perm s.nodes.keys ∧ edges = s.graph

/-- One set of nodes and one list of edges: the key tells nothing apart, and has nothing to tell apart. -/
theorem told_fixed (opts : Lambda1Options) (s : NetworkState) : Told L F opts s.OwnGraph where
  same h h' _ := by rw [h.2, h'.2, buildLaplacianWithOrder_eq_of_perm (h.1.trans h'.1.symm)]
  fails h h' hnone := by
    rw [factorisation, h'.2, buildLaplacianWithOrder_eq_of_perm (h'.1.trans h.1.symm), ← h.2]
    exact hnone

end Transitions

end Gleipnir
