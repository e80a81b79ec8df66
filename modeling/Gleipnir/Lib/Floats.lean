import Mathlib.Algebra.Order.Ring.Rat
import Mathlib.Data.Rat.Init

/-!
# Floating-point data

The data of a binary format are finite numbers, two infinities and NaN. A finite exact result is rounded by the format; the
rest of the arithmetic is that of IEEE 754, but that a zero has no sign: a quotient by zero takes the sign of the dividend.

* `sum_bits`: counting up to the precision of the format is exact.
* `nan_add`, `mul_nan`, …: NaN is kept by every operation, and compares with nothing (`not_lt_nan`).
-/

namespace Ieee

inductive Datum where
  | fin (q : ℚ)
  | inf (negative : Bool)
  | nan
  deriving DecidableEq

/-- A format with 53 bits of precision, rounding in any direction: integers of that many bits are exact. -/
structure Format where
  round : ℚ → Datum
  exact : ∀ n : ℤ, |n| ≤ 2 ^ 53 → round n = .fin n

namespace Datum

variable (F : Format)

/-! ## Arithmetic -/

def add : Datum → Datum → Datum
  | .fin a, .fin b => F.round (a + b)
  | .fin _, .inf t => .inf t
  | .inf s, .fin _ => .inf s
  | .inf s, .inf t => if s = t then .inf s else .nan
  | .nan, _ | _, .nan => .nan

def neg : Datum → Datum
  | .fin a => .fin (-a)
  | .inf s => .inf !s
  | .nan => .nan

def sub (a b : Datum) : Datum := add F a b.neg

def mul : Datum → Datum → Datum
  | .fin a, .fin b => F.round (a * b)
  | .fin a, .inf t => if a = 0 then .nan else .inf (decide (a < 0) ^^ t)
  | .inf s, .fin b => if b = 0 then .nan else .inf (s ^^ decide (b < 0))
  | .inf s, .inf t => .inf (s ^^ t)
  | .nan, _ | _, .nan => .nan

def div : Datum → Datum → Datum
  | .fin a, .fin b => if b = 0 then (if a = 0 then .nan else .inf (a < 0)) else F.round (a / b)
  | .fin _, .inf _ => .fin 0
  | .inf s, .fin b => .inf (s ^^ decide (b < 0))
  | .inf _, .inf _ => .nan
  | .nan, _ | _, .nan => .nan

def abs : Datum → Datum
  | .fin a => .fin |a|
  | .inf _ => .inf false
  | .nan => .nan

/-! ## Comparisons -/

def lt : Datum → Datum → Bool
  | .fin a, .fin b => a < b
  | .fin _, .inf t => !t
  | .inf s, .fin _ => s
  | .inf s, .inf t => s && !t
  | .nan, _ | _, .nan => false

@[simp] theorem fin_lt_fin (a b : ℚ) : lt (.fin a) (.fin b) = decide (a < b) := rfl

/-- Equality as the hardware compares: NaN is not equal to itself. -/
def eq : Datum → Datum → Bool
  | .nan, _ => false
  | a, b => a == b

def le (a b : Datum) : Bool := lt a b || eq a b

/-- The greater of two; an infinity wins over NaN, and NaN over the finite ones. -/
def max (a b : Datum) : Datum :=
  if a = .inf false ∨ b = .inf false then .inf false
  else if a = .nan ∨ b = .nan then .nan
  else if lt a b then b else a

/-- The sum from left to right. -/
def sum (v : List Datum) : Datum := v.foldl (add F) (.fin 0)

/-! ## NaN -/

@[simp] theorem nan_add (a : Datum) : add F .nan a = .nan := by cases a <;> rfl

@[simp] theorem nan_sub (a : Datum) : sub F .nan a = .nan := nan_add F _

@[simp] theorem mul_nan (a : Datum) : mul F a .nan = .nan := by cases a <;> rfl

@[simp] theorem nan_div (a : Datum) : div F .nan a = .nan := by cases a <;> rfl

@[simp] theorem not_lt_nan (a : Datum) : lt a .nan = false := by cases a <;> rfl

/-! ## Exact results -/

variable {F}

theorem round_natCast {n : Nat} (h : n ≤ 2 ^ 53) : F.round n = .fin n := by
  have hexact := F.exact n (by rw [abs_of_nonneg (Int.natCast_nonneg n)]; exact_mod_cast h)
  simpa using hexact

theorem foldl_add_bits {α : Type} (p : α → Bool) : ∀ (xs : List α) (k : Nat), k + xs.length ≤ 2 ^ 53 →
    (xs.map fun x => Datum.fin (if p x then 1 else 0)).foldl (add F) (.fin k) = .fin ((k + xs.countP p : Nat) : ℚ)
  | [], _, _ => rfl
  | x :: xs, k, h => by
    rw [List.length_cons] at h
    have hstep : add F (.fin k) (.fin (if p x then 1 else 0)) = .fin ((k + if p x then 1 else 0 : Nat) : ℚ) := by
      rw [add, ← round_natCast (by split <;> omega)]
      split <;> push_cast <;> rfl
    have hk : (k + if p x then 1 else 0) + xs.length ≤ 2 ^ 53 := by split <;> omega
    rw [List.map_cons, List.foldl_cons, hstep, foldl_add_bits p xs _ hk, List.countP_cons, Nat.add_assoc,
      Nat.add_comm (List.countP p xs)]

/-- **Counting is exact** up to the precision. -/
theorem sum_bits {α : Type} (p : α → Bool) (xs : List α) (h : xs.length ≤ 2 ^ 53) :
    sum F (xs.map fun x => .fin (if p x then 1 else 0)) = .fin (xs.countP p) := by
  have hcount := foldl_add_bits (F := F) p xs 0 (by omega)
  simpa [sum] using hcount

theorem sum_ones {n : Nat} (h : n ≤ 2 ^ 53) : sum F (List.replicate n (.fin 1)) = .fin n := by
  have hcount := sum_bits (F := F) (fun _ : Unit => true) (List.replicate n ()) (by simpa using h)
  simpa using hcount

end Datum

end Ieee
