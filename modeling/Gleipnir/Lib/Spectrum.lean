import Mathlib.Data.Real.Basic
import Mathlib.LinearAlgebra.FiniteDimensional.Lemmas
import Mathlib.LinearAlgebra.Matrix.ToLin
import Mathlib.Tactic.Linarith

/-!
# The second eigenvalue

Eigenvalues of a real matrix in ascending order, with independent eigenvectors (`IsSpectrum`). Two bounds on the second of
them: it is at least `c` if the eigenvectors of smaller eigenvalues lie on one line (`IsSpectrum.le_of_line`), and at most zero
if the kernel is more than a line (`IsSpectrum.second_nonpos`).

Both are applied to the Laplacian of a clique (`cliqueLaplacian`): the vertices of a set are all joined, the others isolated.
-/

namespace Spectral

open Matrix Finset

variable {n : ℕ} {M : Matrix (Fin n) (Fin n) ℝ} {ev : Fin n → ℝ}

/-- The eigenvalues of a matrix in ascending order, each as often as it has independent eigenvectors. -/
structure IsSpectrum (M : Matrix (Fin n) (Fin n) ℝ) (ev : Fin n → ℝ) : Prop where
  monotone : Monotone ev
  vectors : ∃ v : Fin n → Fin n → ℝ, LinearIndependent ℝ v ∧ ∀ i, M *ᵥ v i = ev i • v i

/-- Two vectors on one line are not independent. -/
theorem not_linearIndependent_of_line {x y w : Fin n → ℝ} {a b : ℝ} (hx : x = a • w) (hy : y = b • w) :
    ¬ LinearIndependent ℝ ![x, y] := by
  intro h
  have hzero : b • x + (-a) • y = 0 := by
    rw [hx, hy, smul_smul, smul_smul, ← add_smul, mul_comm b a, neg_mul, add_neg_cancel, zero_smul]
  have ha := (LinearIndependent.pair_iff.1 h b (-a) hzero).2
  have hx0 : x = 0 := by rw [hx, neg_eq_zero.1 ha, zero_smul]
  exact h.ne_zero 0 hx0

namespace IsSpectrum

theorem pair {v : Fin n → Fin n → ℝ} (hv : LinearIndependent ℝ v) {i j : Fin n} (hij : i ≠ j) :
    LinearIndependent ℝ ![v i, v j] := by
  have hinj : Function.Injective ![i, j] := by
    intro a b hab
    fin_cases a <;> fin_cases b <;> simp_all [Ne.symm hij]
  have hcomp := hv.comp ![i, j] hinj
  rwa [show v ∘ ![i, j] = ![v i, v j] from funext fun k => by fin_cases k <;> rfl] at hcomp

/-- If the eigenvectors of eigenvalues below `c` are on one line, only the first eigenvalue is below `c`. -/
theorem le_of_line (h : IsSpectrum M ev) {c : ℝ} {w : Fin n → ℝ}
    (hline : ∀ (μ : ℝ) (x : Fin n → ℝ), μ < c → M *ᵥ x = μ • x → ∃ a : ℝ, x = a • w) {i j : Fin n} (hij : i < j) :
    c ≤ ev j := by
  by_contra hlt
  rw [not_le] at hlt
  obtain ⟨v, hv, heig⟩ := h.vectors
  obtain ⟨a, ha⟩ := hline _ _ (lt_of_le_of_lt (h.monotone hij.le) hlt) (heig i)
  obtain ⟨b, hb⟩ := hline _ _ hlt (heig j)
  exact not_linearIndependent_of_line ha hb (pair hv hij.ne)

/-- A vector of the kernel is a combination of the eigenvectors of the eigenvalue zero. -/
theorem kernel_line {v : Fin n → Fin n → ℝ} (hv : LinearIndependent ℝ v) (heig : ∀ i, M *ᵥ v i = ev i • v i) {i : Fin n}
    (hpos : ∀ k, k ≠ i → ev k ≠ 0) {x : Fin n → ℝ} (hx : M *ᵥ x = 0) : ∃ a : ℝ, x = a • v i := by
  have : Nonempty (Fin n) := ⟨i⟩
  let b := basisOfLinearIndependentOfCardEqFinrank hv (by simp)
  have hb : ∀ k, b k = v k := fun k => congrFun (coe_basisOfLinearIndependentOfCardEqFinrank hv _) k
  have hsum : x = ∑ k, b.repr x k • v k := by
    conv_lhs => rw [← b.sum_repr x]
    exact sum_congr rfl fun k _ => by rw [hb]
  have himage : ∑ k, (b.repr x k * ev k) • v k = 0 := by
    rw [← hx]
    conv_rhs => rw [hsum, mulVec_sum]
    exact sum_congr rfl fun k _ => by rw [mulVec_smul, heig, smul_smul]
  have hcoeff : ∀ k, b.repr x k * ev k = 0 := fun k => Fintype.linearIndependent_iff.1 hv _ himage k
  refine ⟨b.repr x i, hsum.trans (sum_eq_single i (fun k _ hk => ?_) fun hi => absurd (mem_univ i) hi)⟩
  rw [(mul_eq_zero.1 (hcoeff k)).resolve_right (hpos k hk), zero_smul]

/-- If the kernel is more than a line, the second eigenvalue is not positive. -/
theorem second_nonpos (h : IsSpectrum M ev) {x y : Fin n → ℝ} (hx : M *ᵥ x = 0) (hy : M *ᵥ y = 0)
    (hxy : LinearIndependent ℝ ![x, y]) (h2 : 1 < n) : ev ⟨1, h2⟩ ≤ 0 := by
  by_contra hlt
  rw [not_le] at hlt
  obtain ⟨v, hv, heig⟩ := h.vectors
  have hpos : ∀ k, k ≠ (⟨0, by omega⟩ : Fin n) → ev k ≠ 0 := by
    intro k hk
    have hle : (⟨1, h2⟩ : Fin n) ≤ k := by
      rw [Fin.le_def]
      have hne : k.val ≠ 0 := fun h0 => hk (Fin.ext h0)
      exact Nat.one_le_iff_ne_zero.2 hne
    exact (lt_of_lt_of_le hlt (h.monotone hle)).ne'
  obtain ⟨a, ha⟩ := kernel_line hv heig hpos hx
  obtain ⟨b, hb⟩ := kernel_line hv heig hpos hy
  exact not_linearIndependent_of_line ha hb hxy

end IsSpectrum

/-! ## Cliques -/

/-- The Laplacian of a clique on `S`. -/
def cliqueLaplacian (S : Finset (Fin n)) : Matrix (Fin n) (Fin n) ℝ := fun i j =>
  if i = j then (if i ∈ S then (S.card : ℝ) - 1 else 0) else if i ∈ S ∧ j ∈ S then -1 else 0

theorem cliqueLaplacian_mulVec (S : Finset (Fin n)) (x : Fin n → ℝ) (i : Fin n) :
    (cliqueLaplacian S *ᵥ x) i = if i ∈ S then S.card * x i - ∑ j ∈ S, x j else 0 := by
  by_cases hi : i ∈ S
  · have hrow : ∀ j, cliqueLaplacian S i j = (if i = j then (S.card : ℝ) else 0) - if j ∈ S then 1 else 0 := by
      intro j
      unfold cliqueLaplacian
      by_cases hij : i = j
      · subst hij
        simp [hi]
      · by_cases hj : j ∈ S
        · simp [hij, hi, hj]
        · simp [hij, hj]
    rw [if_pos hi]
    simp only [mulVec, dotProduct, hrow, sub_mul, sum_sub_distrib, ite_mul, zero_mul, one_mul, sum_ite_eq, mem_univ, if_true,
      sum_ite_mem, univ_inter]
  · have hrow : ∀ j, cliqueLaplacian S i j = 0 := fun j => by simp [cliqueLaplacian, hi]
    simp [mulVec, dotProduct, hrow, hi]

/-- In a clique on all vertices every eigenvalue but the first is at least the number of vertices. -/
theorem card_le_of_clique (h : IsSpectrum (cliqueLaplacian (univ : Finset (Fin n))) ev) {i j : Fin n} (hij : i < j) :
    (n : ℝ) ≤ ev j := by
  refine h.le_of_line (w := fun _ => 1) (fun μ x hμ hx => ⟨(∑ j, x j) / (n - μ), funext fun k => ?_⟩) hij
  have hk := congrFun hx k
  rw [cliqueLaplacian_mulVec, if_pos (mem_univ k), card_univ, Fintype.card_fin] at hk
  have hne : (n : ℝ) - μ ≠ 0 := (sub_pos.2 hμ).ne'
  simp only [Pi.smul_apply, smul_eq_mul, mul_one] at hk ⊢
  rw [eq_div_iff hne]
  linarith

/-- With an isolated vertex beside the clique, the second eigenvalue is not positive. -/
theorem second_nonpos_of_isolated {S : Finset (Fin n)} (h : IsSpectrum (cliqueLaplacian S) ev) {a b : Fin n} (ha : a ∉ S)
    (hb : b ∈ S) (h2 : 1 < n) : ev ⟨1, h2⟩ ≤ 0 := by
  refine h.second_nonpos (x := fun i => if i ∈ S then 1 else 0) (y := Pi.single a 1) (funext fun i => ?_)
    (funext fun i => ?_) (LinearIndependent.pair_iff.2 fun s t hst => ?_) h2
  · rw [cliqueLaplacian_mulVec]
    split
    · next hi => simp
    · rfl
  · rw [cliqueLaplacian_mulVec]
    split
    · next hi =>
      have hia : i ≠ a := fun hia => ha (hia ▸ hi)
      have hsum : ∑ j ∈ S, (Pi.single a 1 : Fin n → ℝ) j = 0 :=
        sum_eq_zero fun j hj => Pi.single_eq_of_ne (M := fun _ => ℝ) (fun hja : j = a => ha (hja ▸ hj)) 1
      rw [hsum, Pi.single_eq_of_ne hia, mul_zero, sub_zero]
      rfl
    · rfl
  · have hba : b ≠ a := fun hba => ha (hba ▸ hb)
    have hsb := congrFun hst b
    have hta := congrFun hst a
    simp only [Pi.add_apply, Pi.smul_apply, if_pos hb, if_neg ha, Pi.single_eq_of_ne hba, Pi.single_eq_same, smul_eq_mul,
      mul_one, mul_zero, add_zero, zero_add, Pi.zero_apply] at hsb hta
    exact ⟨hsb, hta⟩

end Spectral
