import Mathlib.Algebra.Module.Basic
import Mathlib.Algebra.Field.Defs
import Mathlib.Algebra.Module.Torsion.Field

/-!
# Equality of discrete logarithms

A prover shows that one scalar `x` takes `B` to `Y` and `H` to `Γ`. It commits to `U` and `V`, is given a challenge `c` and answers
with `s`; the verifier checks that `U = s • B - c • Y` and `V = s • H - c • Γ`. An honest prover can answer every challenge
(`answers_honest`). If `Γ` is not `x • H`, the commitments allow one challenge at most (`challenge_unique`).
-/

namespace Dleq

section Equations

variable {F G : Type*} [Ring F] [AddCommGroup G] [Module F G]

/-- `s` answers the challenge `c` for the commitments `U` and `V`. -/
structure Answers (B Y H Γ U V : G) (c s : F) : Prop where
  base : U = s • B - c • Y
  hashed : V = s • H - c • Γ

variable {c c' s s' : F}

/-- What is left of an honest answer is the commitment. -/
theorem honest_sub (P : G) (x k c : F) : (c * x + k) • P - c • x • P = k • P := by
  rw [add_smul, mul_smul, add_sub_cancel_left]

theorem answers_honest (B H : G) (x k c : F) : Answers B (x • B) H (x • H) (k • B) (k • H) c (c * x + k) :=
  ⟨(honest_sub B x k c).symm, (honest_sub H x k c).symm⟩

/-- The difference of two answers, for one of the bases. -/
theorem sub_smul_eq {P Q W : G} (h : W = s • P - c • Q) (h' : W = s' • P - c' • Q) : (s - s') • P = (c - c') • Q := by
  have heq : s • P - c • Q = s' • P - c' • Q := h.symm.trans h'
  rw [sub_smul, sub_smul]
  rw [sub_eq_sub_iff_add_eq_add] at heq ⊢
  rw [heq, add_comm]

end Equations

variable {F G : Type*} [Field F] [AddCommGroup G] [Module F G] {B H Γ U V : G} {x c c' s s' : F}

/-- **One challenge at most.** The response is eliminated from the two equations; what remains is a multiple of
`x • H - Γ`. -/
theorem challenge_unique (hB : B ≠ 0) (hΓ : Γ ≠ x • H) (h : Answers B (x • B) H Γ U V c s)
    (h' : Answers B (x • B) H Γ U V c' s') : c = c' := by
  have hresponse : s - s' = (c - c') * x := by
    have heq : (s - s') • B = ((c - c') * x) • B := by rw [sub_smul_eq h.base h'.base, mul_smul]
    exact smul_left_injective F hB heq
  have hzero : (c - c') • (x • H - Γ) = 0 := by
    rw [smul_sub, sub_eq_zero, ← mul_smul, ← hresponse]
    exact sub_smul_eq h.hashed h'.hashed
  rcases smul_eq_zero.1 hzero with hc | hgamma
  · exact sub_eq_zero.1 hc
  · exact absurd (sub_eq_zero.1 hgamma).symm hΓ

end Dleq
