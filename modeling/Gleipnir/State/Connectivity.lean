import Gleipnir.Lib.Spectrum
import Gleipnir.State.Laplacian
import Mathlib.Data.Fintype.Basic

/-!
# The connectivity of a mesh

What `Compute` makes of the graphs that engines are built with.

* `lambda1_of_large`: from twenty nodes on it is zero for every graph. The power iteration starts from the vector of ones with
  its mean taken off, which is zero; scaling it to norm one divides by zero, and NaN stays NaN until the iterations run out.
* `lambda1_of_mesh`, `lambda1_of_isolated`: below twenty nodes it is about the number of nodes for a full mesh, and about zero
  when one node is left out of it, if the routine for eigenvalues is accurate (`Resolves`).
-/

namespace Gleipnir

open Ieee Datum ExchangeSort Spectral

variable {L : Numerics} {F : Format}

/-! ## Large graphs -/

/-- What the routines make of zeros and of data that are not numbers. -/
structure Numerics.Strict (L : Numerics) : Prop where
  norm2_zero : ∀ n, L.norm2 (List.replicate n (.fin 0)) = .fin 0
  solve_nan : ∀ chol n x, L.solveVecTo chol (List.replicate n .nan) = some x → x = List.replicate n .nan
  dot_nan : ∀ n ys, 0 < n → L.dot (List.replicate n .nan) ys = .nan

theorem orthonormalise_nan (n : Nat) : orthonormalise L F (List.replicate n .nan) = List.replicate n .nan := by
  simp [orthonormalise]

variable {n : Nat} {l : SymDense} {ids uids : List String} {a : String}

/-- The projection of the vector of ones is zero, and has no direction. -/
theorem orthonormalise_ones (hL : L.Strict) (h0 : 0 < n) (hn : n ≤ 2 ^ 53) :
    orthonormalise L F (List.replicate n (.fin 1)) = List.replicate n .nan := by
  have hone : F.round 1 = .fin 1 := by simpa using round_natCast (F := F) (n := 1) (by norm_num)
  have hzero : F.round 0 = .fin 0 := by simpa using round_natCast (F := F) (n := 0) (by norm_num)
  have hne : (n : ℚ) ≠ 0 := Nat.cast_ne_zero.2 (by omega)
  have hmean : Datum.div F (.fin n) (.fin n) = .fin 1 := by
    rw [Datum.div, if_neg hne, div_self hne, hone]
  have hsub : Datum.sub F (.fin 1) (.fin 1) = .fin 0 := by
    rw [Datum.sub, Datum.neg, Datum.add, add_neg_cancel, hzero]
  have hinf : Datum.div F (.fin 1) (.fin 0) = .inf false := rfl
  have hnan : Datum.mul F (.inf false) (.fin 0) = .nan := rfl
  simp only [orthonormalise, sum_ones hn, List.length_replicate, round_natCast hn, hmean, List.map_replicate, hsub,
    hL.norm2_zero, hinf, hnan]

/-- **The iteration** never gets away from NaN. -/
theorem powerIter_nan (hL : L.Strict) (l : SymDense) (chol : L.Chol) (opts : Lambda1Options) (h0 : 0 < n) (k : Nat) :
    ∀ lambda, (Datum.fin 0).lt lambda = false →
      powerIter L F l chol opts k (List.replicate n .nan) lambda = .fin 0 := by
  induction k with
  | zero => exact fun _ _ => rfl
  | succ k ih =>
    intro lambda hlambda
    rw [powerIter]
    cases hx : L.solveVecTo chol (List.replicate n .nan) with
    | none => rfl
    | some x =>
      obtain rfl := hL.solve_nan chol n x hx
      dsimp only
      rw [hL.dot_nan n _ h0, hL.dot_nan n _ h0, nan_div, hlambda, orthonormalise_nan]
      exact ih .nan (not_lt_nan _)

/-- **Large graphs**: from twenty nodes on, the eigenvalue of every graph is zero. -/
theorem lambda1_of_large (hL : L.Strict) (opts : Lambda1Options) {nodes : Nodes}
    (h20 : 20 ≤ nodes.entries.length) (hn : nodes.entries.length ≤ 2 ^ 53) (edges : List Edge) :
    lambda1Of (plainLambda1 L F opts nodes edges) = some 0 := by
  have hlength : (buildLaplacianWithOrder F nodes edges).1.length = nodes.entries.length := by
    rw [buildLaplacianWithOrder, if_neg (by omega), laplacianOf, List.length_map, List.length_range,
      (exchangeSort_perm _).length_eq, length_keys]
  rw [plainLambda1, if_neg (by omega)]
  cases factorisation L F opts nodes edges with
  | none => rfl
  | some chol =>
    dsimp only
    rw [computeLambda1FromCache, hlength, if_neg (by omega), if_neg (by omega), computeLambda1PowerIterWithFact, hlength,
      orthonormalise_ones hL (by omega) hn, powerIter_nan hL _ _ _ (by omega) _ _ rfl]
    rfl

/-! ## The matrix of a mesh -/

/-- The rows are those of a real matrix. -/
def SymDense.Represents (l : SymDense) {n : Nat} (M : Matrix (Fin n) (Fin n) ℝ) : Prop :=
  l.length = n ∧ ∀ i j : Fin n, ∃ q : ℚ, l.entry i j = some (.fin q) ∧ (q : ℝ) = M i j

/-- The routine for eigenvalues finds those of the matrix, up to `ε`. -/
def Numerics.Resolves (L : Numerics) (ε : ℝ) (l : SymDense) : Prop :=
  ∃ values, L.eigenSym l = some values ∧ ∃ (n : Nat) (M : Matrix (Fin n) (Fin n) ℝ) (ev : Fin n → ℝ), l.Represents M ∧
    IsSpectrum M ev ∧ ∀ i : Fin n, ∃ q : ℚ, values[i.val]? = some (.fin q) ∧ |(q : ℝ) - ev i| ≤ ε

theorem SymDense.Represents.inj {M M' : Matrix (Fin n) (Fin n) ℝ} (h : l.Represents M) (h' : l.Represents M') : M = M' := by
  ext i j
  obtain ⟨q, hq, hM⟩ := h.2 i j
  obtain ⟨q', hq', hM'⟩ := h'.2 i j
  rw [hq] at hq'
  cases hq'
  rw [← hM, ← hM']

/-- The edges of a full mesh, as `NewEngineWithPeers` lists them: from every node to every node, itself included. -/
def meshEdges (ids : List String) : List Edge := ids.flatMap fun a => ids.map fun b => ⟨a, b, 1⟩

theorem mem_meshEdges {e : Edge} : e ∈ meshEdges ids ↔ e.source ∈ ids ∧ e.target ∈ ids ∧ e.weight = 1 := by
  simp only [meshEdges, List.mem_flatMap, List.mem_map]
  constructor
  · rintro ⟨a, ha, b, hb, rfl⟩
    exact ⟨ha, hb, rfl⟩
  · rintro ⟨ha, hb, hw⟩
    exact ⟨_, ha, _, hb, by rw [← hw]⟩

theorem lastWeight_mesh (ids : List String) (a b : String) :
    lastWeight (meshEdges ids) a b = .fin (if a ∈ ids ∧ b ∈ ids then 1 else 0) := by
  unfold lastWeight
  cases hfind : (meshEdges ids).reverse.find? (·.joins a b) with
  | none =>
    have hno : ¬(a ∈ ids ∧ b ∈ ids) := by
      rintro ⟨ha, hb⟩
      have hmem : (⟨a, b, 1⟩ : Edge) ∈ (meshEdges ids).reverse := List.mem_reverse.2 (mem_meshEdges.2 ⟨ha, hb, rfl⟩)
      exact absurd (by simp [Edge.joins]) (List.find?_eq_none.1 hfind _ hmem)
    rw [if_neg hno]
  | some e =>
    obtain ⟨hs, ht, hw⟩ := mem_meshEdges.1 (List.mem_reverse.1 (List.mem_of_find?_eq_some hfind))
    have hjoins : e.joins a b = true := List.find?_some (p := fun e : Edge => e.joins a b) hfind
    simp only [Edge.joins, Bool.or_eq_true, Bool.and_eq_true, decide_eq_true_eq] at hjoins
    have hab : a ∈ ids ∧ b ∈ ids := by
      rcases hjoins with ⟨rfl, rfl⟩ | ⟨rfl, rfl⟩
      · exact ⟨hs, ht⟩
      · exact ⟨ht, hs⟩
    rw [if_pos hab, ← hw]

/-- The positions of the nodes that are in the mesh. -/
def meshed (uids ids : List String) : Finset (Fin uids.length) := Finset.univ.filter fun i => uids[i.val] ∈ ids

theorem card_meshed (h : uids.Nodup) (ids : List String) : (meshed uids ids).card = uids.countP (· ∈ ids) := by
  have himage : (meshed uids ids).image (fun i => uids[i.val]) = (uids.filter (· ∈ ids)).toFinset := by
    ext a
    simp only [meshed, Finset.mem_image, Finset.mem_filter, Finset.mem_univ, true_and, List.mem_toFinset, List.mem_filter,
      decide_eq_true_eq]
    constructor
    · rintro ⟨i, hi, rfl⟩
      exact ⟨List.getElem_mem i.isLt, hi⟩
    · rintro ⟨ha, hids⟩
      obtain ⟨i, hi, rfl⟩ := List.getElem_of_mem ha
      exact ⟨⟨i, hi⟩, hids, rfl⟩
  have hinj : Function.Injective fun i : Fin uids.length => uids[i.val] := fun i j hij => Fin.ext ((h.getElem_inj_iff).1 hij)
  rw [← Finset.card_image_of_injective _ hinj, himage, List.toFinset_card_of_nodup (h.filter _), List.countP_eq_length_filter]

/-- The other nodes of the mesh are one less. -/
theorem countP_others (h : uids.Nodup) (p : String → Bool) (ha : a ∈ uids) (hp : p a) :
    (uids.filter (· ≠ a)).countP p = uids.countP p - 1 := by
  have herase : (uids.filter (· ≠ a)).filter p = (uids.filter p).erase a := by
    rw [(h.filter p).erase_eq_filter, List.filter_comm]
    refine List.filter_congr fun x _ => ?_
    rw [bne, decide_not]
    rfl
  rw [List.countP_eq_length_filter, herase, List.length_erase_of_mem (List.mem_filter.2 ⟨ha, hp⟩),
    List.countP_eq_length_filter]

theorem mem_meshed {i : Fin uids.length} : i ∈ meshed uids ids ↔ uids[i.val] ∈ ids := by simp [meshed]

/-- The degree of a node: the other nodes of the mesh, if it is in the mesh. -/
theorem sum_mesh (h : uids.Nodup) (hn : uids.length ≤ 2 ^ 53) (ids : List String) (ha : a ∈ uids) :
    Datum.sum F ((uids.filter (· ≠ a)).map (lastWeight (meshEdges ids) a)) =
      .fin (if a ∈ ids then uids.countP (· ∈ ids) - 1 else 0) := by
  have hlength : (uids.filter (· ≠ a)).length ≤ 2 ^ 53 := le_trans (List.length_filter_le _ _) hn
  by_cases hi : a ∈ ids
  · have hweights : lastWeight (meshEdges ids) a = fun x => .fin (if decide (x ∈ ids) then 1 else 0) :=
      funext fun x => by simp [lastWeight_mesh, hi]
    have hpos : 1 ≤ uids.countP (· ∈ ids) := List.countP_pos_iff.2 ⟨a, ha, by simpa using hi⟩
    rw [hweights, sum_bits (fun x => decide (x ∈ ids)) _ hlength, if_pos hi,
      countP_others h (fun x => decide (x ∈ ids)) ha (by simpa using hi), Nat.cast_sub hpos, Nat.cast_one]
  · have hweights : lastWeight (meshEdges ids) a = fun _ => .fin (if false then 1 else 0) :=
      funext fun x => by simp [lastWeight_mesh, hi]
    rw [hweights, sum_bits (fun _ => false) _ hlength, if_neg hi, List.countP_false]
    rfl

/-- **The matrix of a mesh** is the Laplacian of a clique. -/
theorem represents_mesh (h : uids.Nodup) (hn : uids.length ≤ 2 ^ 53) (ids : List String) :
    (laplacianOf F uids (meshEdges ids)).Represents (cliqueLaplacian (meshed uids ids)) := by
  refine ⟨by simp [laplacianOf], fun i j => ?_⟩
  by_cases hij : i = j
  · subst hij
    refine ⟨_, (diagonal_laplacianOf h _ i.isLt).trans (congrArg some (sum_mesh h hn ids (List.getElem_mem i.isLt))), ?_⟩
    rw [cliqueLaplacian, if_pos rfl, card_meshed h]
    by_cases hi : i ∈ meshed uids ids
    · rw [if_pos hi, if_pos (mem_meshed.1 hi)]
      push_cast
      rfl
    · rw [if_neg hi, if_neg fun hm => hi (mem_meshed.2 hm), Rat.cast_zero]
  · have hne : i.val ≠ j.val := fun hv => hij (Fin.ext hv)
    have hentry := entry_laplacianOf (F := F) h (meshEdges ids) i.isLt j.isLt hne
    rw [lastWeight_mesh] at hentry
    refine ⟨_, hentry, ?_⟩
    rw [cliqueLaplacian, if_neg hij]
    by_cases hb : i ∈ meshed uids ids ∧ j ∈ meshed uids ids
    · rw [if_pos hb, if_pos ⟨mem_meshed.1 hb.1, mem_meshed.1 hb.2⟩]
      norm_num
    · rw [if_neg hb, if_neg fun hm => hb ⟨mem_meshed.2 hm.1, mem_meshed.2 hm.2⟩]
      norm_num

/-! ## Its second eigenvalue -/

/-- What the routine finds for the second eigenvalue of a small matrix. -/
theorem eigenSym_second {ε : ℝ} (h : L.Resolves ε l) {M : Matrix (Fin n) (Fin n) ℝ} (hM : l.Represents M) (h2 : 1 < n) :
    ∃ (ev : Fin n → ℝ) (q : ℚ), IsSpectrum M ev ∧ |(q : ℝ) - ev ⟨1, h2⟩| ≤ ε ∧
      computeLambda1EigenSym L l = .fin (max q 0) := by
  obtain ⟨values, hvalues, m, M', ev, hM', hspec, hclose⟩ := h
  obtain rfl : m = n := hM'.1.symm.trans hM.1
  obtain rfl := hM.inj hM'
  obtain ⟨q, hq, habs⟩ := hclose ⟨1, h2⟩
  refine ⟨ev, q, hspec, habs, ?_⟩
  have hq1 : values[1]? = some (.fin q) := hq
  rw [computeLambda1EigenSym, hvalues]
  dsimp only
  rw [hq1]
  dsimp only
  by_cases hneg : q < 0
  · simp [hneg, max_eq_right hneg.le]
  · simp [hneg, max_eq_left (not_lt.1 hneg)]

section Small

variable {nodes : Nodes} {ids : List String} {opts : Lambda1Options} {ε : ℝ}

theorem represents_build (h2 : 2 ≤ nodes.entries.length) (h20 : nodes.entries.length < 20) (ids : List String) :
    (buildLaplacianWithOrder F nodes (meshEdges ids)).1.Represents (cliqueLaplacian (meshed (exchangeSort nodes.keys) ids)) ∧
      (exchangeSort nodes.keys).length = nodes.entries.length := by
  have hlength : (exchangeSort nodes.keys).length = nodes.entries.length := by
    rw [(exchangeSort_perm _).length_eq, length_keys]
  have hnodup : (exchangeSort nodes.keys).Nodup := (exchangeSort_perm _).nodup_iff.2 nodes.keys_nodup
  rw [buildLaplacianWithOrder, if_neg (by omega)]
  exact ⟨represents_mesh hnodup (by rw [hlength]; omega) ids, hlength⟩

theorem fromCache_small {edges : List Edge} {chol : L.Chol} {n : Nat} {M : Matrix (Fin n) (Fin n) ℝ}
    (hM : (buildLaplacianWithOrder F nodes edges).1.Represents M) (h2 : 2 ≤ n) (h20 : n < 20) :
    computeLambda1FromCache L F (buildLaplacianWithOrder F nodes edges).1 chol opts =
      computeLambda1EigenSym L (buildLaplacianWithOrder F nodes edges).1 := by
  have hlength := hM.1
  rw [computeLambda1FromCache, if_neg (by omega), if_pos (by omega)]

/-- **A full mesh** of fewer than twenty nodes has an eigenvalue of about their number. -/
theorem lambda1_of_mesh (h2 : 2 ≤ nodes.entries.length) (h20 : nodes.entries.length < 20)
    (hall : ∀ id ∈ nodes.keys, id ∈ ids) (hfact : factorisation L F opts nodes (meshEdges ids) ≠ none)
    (hres : L.Resolves ε (buildLaplacianWithOrder F nodes (meshEdges ids)).1) :
    ∃ q : ℚ, lambda1Of (plainLambda1 L F opts nodes (meshEdges ids)) = some q ∧ nodes.entries.length - ε ≤ (q : ℝ) := by
  obtain ⟨hM, hlength⟩ := represents_build (F := F) h2 h20 ids
  have huniv : meshed (exchangeSort nodes.keys) ids = Finset.univ := Finset.eq_univ_iff_forall.2 fun i =>
    mem_meshed.2 (hall _ ((exchangeSort_perm _).mem_iff.1 (List.getElem_mem i.isLt)))
  obtain ⟨ev, q, hspec, habs, heig⟩ := eigenSym_second hres hM (by omega)
  rw [huniv] at hspec
  have hcard := card_le_of_clique hspec (i := ⟨0, by omega⟩) (j := ⟨1, by omega⟩) (by simp [Fin.lt_def])
  rw [plainLambda1, if_neg (by omega)]
  cases hf : factorisation L F opts nodes (meshEdges ids) with
  | none => exact absurd hf hfact
  | some chol =>
    dsimp only
    rw [fromCache_small hM (by omega) (by omega), heig]
    refine ⟨max q 0, rfl, ?_⟩
    have hq : (q : ℝ) ≤ ((max q 0 : ℚ) : ℝ) := by exact_mod_cast le_max_left q 0
    have hn : ((exchangeSort nodes.keys).length : ℝ) = nodes.entries.length := by rw [hlength]
    have hlow := (abs_le.1 habs).1
    linarith

/-- **A node beside the mesh** leaves an eigenvalue of about zero. -/
theorem lambda1_of_isolated (h2 : 2 ≤ nodes.entries.length) (h20 : nodes.entries.length < 20) {a b : String}
    (ha : a ∈ nodes.keys) (haout : a ∉ ids) (hb : b ∈ nodes.keys) (hbin : b ∈ ids) (hε : 0 ≤ ε)
    (hres : L.Resolves ε (buildLaplacianWithOrder F nodes (meshEdges ids)).1) :
    ∃ q : ℚ, lambda1Of (plainLambda1 L F opts nodes (meshEdges ids)) = some q ∧ (q : ℝ) ≤ ε := by
  obtain ⟨hM, hlength⟩ := represents_build (F := F) h2 h20 ids
  obtain ⟨i, hi, rfl⟩ := List.getElem_of_mem ((exchangeSort_perm _).mem_iff.2 ha)
  obtain ⟨j, hj, rfl⟩ := List.getElem_of_mem ((exchangeSort_perm _).mem_iff.2 hb)
  obtain ⟨ev, q, hspec, habs, heig⟩ := eigenSym_second hres hM (by omega)
  have hsecond := second_nonpos_of_isolated hspec (a := ⟨i, hi⟩) (b := ⟨j, hj⟩) (fun hm => haout (mem_meshed.1 hm))
    (mem_meshed.2 hbin) (by omega)
  rw [plainLambda1, if_neg (by omega)]
  cases factorisation L F opts nodes (meshEdges ids) with
  | none => exact ⟨0, rfl, by simpa using hε⟩
  | some chol =>
    dsimp only
    rw [fromCache_small hM (by omega) (by omega), heig]
    refine ⟨max q 0, rfl, ?_⟩
    have hhigh := (abs_le.1 habs).2
    rw [Rat.cast_max, Rat.cast_zero]
    exact max_le (by linarith) hε

end Small

end Gleipnir
