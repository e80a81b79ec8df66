import Mathlib.Data.Int.LeastGreatest
import Mathlib.Data.List.Chain
import Mathlib.Order.Lattice
import Mathlib.Tactic.Positivity.Basic

/-!
# Tilings of an interval

Half-open intervals laid end to end. `Tiles s e l` says that the intervals `l` are not empty, that each begins where the one
before it ends, and that together they are `[s, e)`.

The second part is about points on a grid of tiles of one length. A point in every tile does not give a point in every
interval of that length: two neighbouring points may be almost two tiles apart. `everyLength_iff`: it does exactly if the
points on the two sides of each border are at most one length apart.
-/

namespace Tiling

/-- The interval from `start` up to, and without, `stop`. -/
structure Span (α : Type*) where
  start : α
  stop : α
  deriving DecidableEq, Repr

namespace Span

variable {α β : Type*}

def map (f : α → β) (i : Span α) : Span β := ⟨f i.start, f i.stop⟩

/-- `t` lies in the interval. -/
def Holds [LE α] [LT α] (i : Span α) (t : α) : Prop := i.start ≤ t ∧ t < i.stop

instance [LE α] [LT α] [DecidableLE α] [DecidableLT α] (i : Span α) (t : α) : Decidable (i.Holds t) :=
  inferInstanceAs (Decidable (_ ∧ _))

end Span

/-! ## Tilings -/

section Tilings

variable {α : Type*} [LinearOrder α] {s m e : α} {l : List (Span α)}

/-- The intervals `l`, in this order, tile `[s, e)`. -/
structure Tiles (s e : α) (l : List (Span α)) : Prop where
  nonempty : ∀ i ∈ l, i.start < i.stop
  first : ∀ i ∈ l.head?, i.start = s
  contiguous : l.IsChain fun i j => i.stop = j.start
  ascending : l.Pairwise fun i j => i.stop ≤ j.start
  covers : ∀ t, (∃ i ∈ l, i.Holds t) ↔ s ≤ t ∧ t < e

theorem Tiles.nil (h : e ≤ s) : Tiles s e [] where
  nonempty := by simp
  first := by simp
  contiguous := .nil
  ascending := .nil
  covers t := by simpa using fun ht => h.trans ht

/-- A tile of a tiling begins at its start or later. -/
theorem Tiles.le_start (h : Tiles s e l) {i : Span α} (hi : i ∈ l) : s ≤ i.start :=
  ((h.covers i.start).1 ⟨i, hi, le_rfl, h.nonempty i hi⟩).1

/-- One more tile before a tiling. -/
theorem Tiles.cons (hs : s < m) (hm : m ≤ e) (h : Tiles m e l) : Tiles s e (⟨s, m⟩ :: l) where
  nonempty := by
    intro i hi
    rcases List.mem_cons.1 hi with rfl | hi
    · exact hs
    · exact h.nonempty i hi
  first := by simp
  contiguous := List.isChain_cons.2 ⟨fun i hi => (h.first i hi).symm, h.contiguous⟩
  ascending := List.pairwise_cons.2 ⟨fun i hi => h.le_start hi, h.ascending⟩
  covers t := by
    simp only [List.mem_cons, exists_eq_or_imp, h.covers]
    constructor
    · rintro (⟨hst, htm⟩ | ⟨hmt, hte⟩)
      · exact ⟨hst, lt_of_lt_of_le htm hm⟩
      · exact ⟨hs.le.trans hmt, hte⟩
    · rintro ⟨hst, hte⟩
      rcases lt_or_ge t m with htm | hmt
      · exact .inl ⟨hst, htm⟩
      · exact .inr ⟨hmt, hte⟩

theorem Tiles.single (h : s < e) : Tiles s e [⟨s, e⟩] := (Tiles.nil le_rfl).cons h le_rfl

end Tilings

/-! ## Points on a grid -/

section Grid

variable {P : ℤ → Prop} {s e step : ℤ}

/-- Every tile of length `step` from `s` on, the last one cut at `e`, has a point in it. -/
def Filled (P : ℤ → Prop) (s e step : ℤ) : Prop :=
  ∀ k : ℕ, s + k * step < e → ∃ t, P t ∧ s + k * step ≤ t ∧ t < s + (k + 1) * step ∧ t < e

/-- Every interval of length `step` in `[s, e)` has a point in it. -/
def EveryLength (P : ℤ → Prop) (s e step : ℤ) : Prop :=
  ∀ x, s ≤ x → x + step ≤ e → ∃ t, P t ∧ x ≤ t ∧ t < x + step

/-- `t` is the last point before `b` and `t'` the first one from `b` on. -/
def Around (P : ℤ → Prop) (b t t' : ℤ) : Prop :=
  P t ∧ P t' ∧ t < b ∧ b ≤ t' ∧ ∀ u, P u → u ≤ t ∨ t' ≤ u

/-- The points next to each border between two tiles are at most `step` apart. -/
def CloseAtBorders (P : ℤ → Prop) (s e step : ℤ) : Prop :=
  ∀ k : ℕ, 0 < k → s + k * step < e → ∀ t t', Around P (s + k * step) t t' → t' ≤ t + step

/-- One tile further. -/
theorem succ_mul_step (k : ℕ) (step : ℤ) : ((k + 1 : ℕ) : ℤ) * step = k * step + step := by
  rw [Nat.cast_succ, add_one_mul]

/-- A border with points on both sides has two that are next to it. -/
theorem exists_around {b : ℤ} (hbefore : ∃ t, P t ∧ t < b) (hafter : ∃ t, P t ∧ b ≤ t) : ∃ t t', Around P b t t' := by
  obtain ⟨t, ⟨ht, htb⟩, hlast⟩ := Int.exists_greatest_of_bdd (P := fun t => P t ∧ t < b) ⟨b, fun _ h => h.2.le⟩ hbefore
  obtain ⟨t', ⟨ht', hbt'⟩, hfirst⟩ := Int.exists_least_of_bdd (P := fun t => P t ∧ b ≤ t) ⟨b, fun _ h => h.2⟩ hafter
  refine ⟨t, t', ht, ht', htb, hbt', fun u hu => ?_⟩
  rcases lt_or_ge u b with hub | hbu
  · exact .inl (hlast u ⟨hu, hub⟩)
  · exact .inr (hfirst u ⟨hu, hbu⟩)

/-- A point from `s` on lies in one tile of the grid. -/
theorem exists_tile (hstep : 0 < step) {x : ℤ} (hx : s ≤ x) : ∃ k : ℕ, s + k * step ≤ x ∧ x < s + (k + 1) * step := by
  have hquot : 0 ≤ (x - s) / step := Int.ediv_nonneg (by omega) hstep.le
  refine ⟨((x - s) / step).toNat, ?_⟩
  rw [Int.toNat_of_nonneg hquot]
  have hle := Int.ediv_mul_le (x - s) hstep.ne'
  have hlt := Int.lt_ediv_add_one_mul_self (x - s) hstep
  exact ⟨by omega, by omega⟩

/-- The points next to a border lie in the two tiles there. -/
theorem Filled.around (h : Filled P s e step) (hstep : 0 < step) {k : ℕ} (hb : s + (k + 1 : ℕ) * step < e) {t t' : ℤ}
    (ha : Around P (s + (k + 1 : ℕ) * step) t t') : s + k * step ≤ t ∧ t' < e := by
  obtain ⟨-, -, htb, hbt', hnext⟩ := ha
  have hsucc := succ_mul_step k step
  obtain ⟨u, hu, hku, hub, -⟩ := h k (by omega)
  obtain ⟨u', hu', hbu', -, hue⟩ := h (k + 1) hb
  rw [add_one_mul] at hub
  rcases hnext u hu with hut | htu
  · rcases hnext u' hu' with hut' | htu'
    · omega
    · exact ⟨by omega, by omega⟩
  · omega

/-- **Points in every interval.** With a point in every tile, every interval of a tile's length has one exactly if the points
next to each border are at most that length apart. -/
theorem everyLength_iff (hstep : 0 < step) (h : Filled P s e step) : EveryLength P s e step ↔ CloseAtBorders P s e step := by
  constructor
  · -- otherwise the interval that begins right after the point before the border has no point in it
    intro hevery k hk hb t t' ha
    obtain ⟨k, rfl⟩ : ∃ j, k = j + 1 := ⟨k - 1, by omega⟩
    obtain ⟨hkt, hte⟩ := h.around hstep hb ha
    by_contra hfar
    have hks : 0 ≤ (k : ℤ) * step := by positivity
    obtain ⟨u, hu, htu, hut⟩ := hevery (t + 1) (by omega) (by omega)
    rcases ha.2.2.2.2 u hu with hle | hle
    · omega
    · omega
  · -- an interval that is not a tile has a border inside
    intro hclose x hx hxe
    obtain ⟨k, hkx, hxk⟩ := exists_tile hstep hx
    have hsucc := succ_mul_step k step
    rw [add_one_mul] at hxk
    obtain ⟨u, hu, hku, hub, -⟩ := h k (by omega)
    rw [add_one_mul] at hub
    rcases eq_or_lt_of_le hkx with heq | hlt
    · exact ⟨u, hu, by omega, by omega⟩
    · obtain ⟨u', hu', hbu', -, -⟩ := h (k + 1) (by omega)
      obtain ⟨t, t', ha⟩ := exists_around (b := s + (k + 1 : ℕ) * step) ⟨u, hu, by omega⟩ ⟨u', hu', hbu'⟩
      have hnear := hclose (k + 1) (Nat.succ_pos k) (by omega) t t' ha
      obtain ⟨ht, ht', htb, hbt', -⟩ := ha
      rcases le_or_gt x t with hxt | htx
      · exact ⟨t, ht, hxt, by omega⟩
      · exact ⟨t', ht', by omega, by omega⟩

end Grid

end Tiling
