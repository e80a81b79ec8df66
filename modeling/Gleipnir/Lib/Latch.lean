import Mathlib.Data.List.DropRight

/-!
# A latch that is released late

Some inputs set a latch, and it is released by `delay` releasing inputs in a row; at least one is needed. The state of the
latch has a counter. `on_run_iff` says what it does without one: the latch is set after a history exactly if some input set it
and no long enough row of releasing inputs came later.
-/

namespace Latch

variable {ι : Type*}

/-- What sets the latch, what counts towards its release, and how many of these in a row release it. -/
structure Policy (ι : Type*) where
  sets : ι → Bool
  releases : ι → Bool
  delay : Nat
  apart : ∀ i, sets i = true → releases i = false

/-- The latch, with the number of releasing inputs since it was set or last refused one. -/
structure State where
  on : Bool
  streak : Nat

namespace Policy

variable (R : Policy ι)

def step (s : State) (i : ι) : State :=
  if s.on then
    if R.releases i then if R.delay ≤ s.streak + 1 then ⟨false, 0⟩ else ⟨true, s.streak + 1⟩
    else ⟨true, 0⟩
  else if R.sets i then ⟨true, 0⟩ else s

variable {R} {s : State} {i : ι}

theorem step_idle (hon : s.on = false) (hi : R.sets i = false) : R.step s i = s := by
  rw [step, if_neg (by simp [hon]), if_neg (by simp [hi])]

theorem step_set (hon : s.on = false) (hi : R.sets i = true) : R.step s i = ⟨true, 0⟩ := by
  rw [step, if_neg (by simp [hon]), if_pos hi]

theorem step_refused (hon : s.on = true) (hi : R.releases i = false) : R.step s i = ⟨true, 0⟩ := by
  rw [step, if_pos hon, if_neg (by simp [hi])]

theorem step_counted (hon : s.on = true) (hi : R.releases i = true) (hdelay : s.streak + 1 < R.delay) :
    R.step s i = ⟨true, s.streak + 1⟩ := by
  rw [step, if_pos hon, if_pos hi, if_neg (Nat.not_le.2 hdelay)]

theorem step_released (hon : s.on = true) (hi : R.releases i = true) (hdelay : R.delay ≤ s.streak + 1) :
    R.step s i = ⟨false, 0⟩ := by
  rw [step, if_pos hon, if_pos hi, if_pos hdelay]

variable (R)

/-- The latch after a history of inputs. -/
def run (is : List ι) : State := is.foldl R.step ⟨false, 0⟩

theorem run_concat (is : List ι) (i : ι) : R.run (is ++ [i]) = R.step (R.run is) i := by
  rw [run, List.foldl_concat, run]

/-- The length of the row that is needed. -/
def row : Nat := max 1 R.delay

end Policy

/-! ## Rows -/

section Rows

variable {p : ι → Bool} {n : Nat} {is later : List ι} {i : ι}

/-- There are `n` inputs in a row that meet `p`. -/
def HasRow (p : ι → Bool) (n : Nat) (is : List ι) : Prop := ∃ block, block <:+: is ∧ block.length = n ∧ ∀ i ∈ block, p i = true

/-- How many inputs at the end meet `p`. -/
def trail (p : ι → Bool) (is : List ι) : Nat := (is.rtakeWhile p).length

theorem trail_concat_pos (h : p i = true) : trail p (is ++ [i]) = trail p is + 1 := by
  rw [trail, List.rtakeWhile_concat_pos p is i h, List.length_append, List.length_singleton, trail]

theorem trail_concat_neg (h : p i = false) : trail p (is ++ [i]) = 0 := by
  rw [trail, List.rtakeWhile_concat_neg p is i (by simp [h]), List.length_nil]

/-- Only what comes after an input that does not meet `p` counts. -/
theorem trail_after (h : p i = false) : trail p (is ++ i :: later) = trail p later := by
  induction later using List.reverseRecOn with
  | nil =>
    rw [trail_concat_neg h]
    rfl
  | append_singleton later j ih =>
    rw [← List.cons_append, ← List.append_assoc]
    cases hj : p j with
    | true => rw [trail_concat_pos hj, trail_concat_pos hj, ih]
    | false => rw [trail_concat_neg hj, trail_concat_neg hj]

/-- The end of a history is in a row if it is short enough. -/
theorem suffix_iff_le_trail : (∃ block, block <:+ is ∧ block.length = n ∧ ∀ i ∈ block, p i = true) ↔ n ≤ trail p is := by
  constructor
  · rintro ⟨block, ⟨before, rfl⟩, rfl, hblock⟩
    rw [trail, List.rtakeWhile, List.reverse_append,
      List.takeWhile_append_of_pos fun i hi => hblock i (List.mem_reverse.1 hi)]
    simp
  · intro h
    refine ⟨(is.rtakeWhile p).drop (trail p is - n), ?_, ?_, ?_⟩
    · exact (List.drop_suffix _ _).trans (List.rtakeWhile_suffix p is)
    · rw [List.length_drop]
      change trail p is - (trail p is - n) = n
      omega
    · exact fun i hi => List.mem_rtakeWhile_imp (List.mem_of_mem_drop hi)

theorem hasRow_concat_iff : HasRow p n (is ++ [i]) ↔ n ≤ trail p (is ++ [i]) ∨ HasRow p n is := by
  rw [← suffix_iff_le_trail]
  simp only [HasRow, List.infix_concat_iff, or_and_right, exists_or]

theorem not_hasRow_nil (h : 0 < n) : ¬ HasRow p n [] := by
  rintro ⟨block, hblock, rfl, -⟩
  rw [List.infix_nil.1 hblock] at h
  exact absurd h (lt_irrefl _)

end Rows

/-! ## Histories -/

namespace Policy

variable {R : Policy ι} {is : List ι} {i : ι}

/-- Some input set the latch, and nothing released it later. -/
def Holds (R : Policy ι) (is : List ι) : Prop :=
  ∃ before i later, is = before ++ i :: later ∧ R.sets i = true ∧ ¬ HasRow R.releases R.row later

theorem row_pos : 0 < R.row := lt_of_lt_of_le Nat.zero_lt_one (Nat.le_max_left ..)

theorem not_holds_nil : ¬ R.Holds [] := by
  rintro ⟨before, i, later, h, -⟩
  simp at h

/-- What one more input does to a history. -/
theorem holds_concat_iff : R.Holds (is ++ [i]) ↔ R.sets i = true ∨ R.Holds is ∧ trail R.releases (is ++ [i]) < R.row := by
  constructor
  · rintro ⟨before, j, later, heq, hj, hrow⟩
    rcases List.eq_nil_or_concat' later with rfl | ⟨later, k, rfl⟩
    · obtain ⟨rfl, h⟩ := List.append_inj' heq rfl
      obtain rfl : i = j := List.singleton_inj.1 h
      exact .inl hj
    · rw [← List.cons_append, ← List.append_assoc] at heq
      obtain ⟨rfl, h⟩ := List.append_inj' heq rfl
      obtain rfl : i = k := List.singleton_inj.1 h
      rw [hasRow_concat_iff, not_or, not_le] at hrow
      rw [List.append_assoc, List.cons_append, trail_after (R.apart j hj)]
      exact .inr ⟨⟨before, j, later, rfl, hj, hrow.2⟩, hrow.1⟩
  · rintro (hi | ⟨⟨before, j, later, rfl, hj, hrow⟩, htrail⟩)
    · exact ⟨is, i, [], rfl, hi, not_hasRow_nil row_pos⟩
    · rw [List.append_assoc, List.cons_append, trail_after (R.apart j hj)] at htrail
      refine ⟨before, j, later ++ [i], by simp, hj, ?_⟩
      rw [hasRow_concat_iff, not_or, not_le]
      exact ⟨htrail, hrow⟩

/-- The counter of a latch that is set is the row at the end of the history, which is too short. -/
structure Counts (R : Policy ι) (is : List ι) (s : State) : Prop where
  on : s.on = true ↔ R.Holds is
  short : s.streak < R.row
  streak : s.on = true → s.streak = trail R.releases is

theorem Counts.step {s : State} (h : R.Counts is s) (i : ι) : R.Counts (is ++ [i]) (R.step s i) := by
  cases hon : s.on with
  | false =>
    have hholds : ¬ R.Holds is := fun hh => by simp [h.on.2 hh] at hon
    cases hi : R.sets i with
    | false =>
      rw [step_idle hon hi]
      refine ⟨?_, h.short, fun hon' => by simp [hon] at hon'⟩
      rw [holds_concat_iff]
      simp [hi, hholds, hon]
    | true =>
      rw [step_set hon hi]
      refine ⟨?_, row_pos, fun _ => (trail_concat_neg (R.apart i hi)).symm⟩
      rw [holds_concat_iff]
      simp [hi]
  | true =>
    have hholds := h.on.1 hon
    cases hi : R.releases i with
    | false =>
      have htrail : trail R.releases (is ++ [i]) = 0 := trail_concat_neg hi
      rw [step_refused hon hi]
      refine ⟨?_, row_pos, fun _ => htrail.symm⟩
      rw [holds_concat_iff, htrail]
      simp [hholds, R.row_pos]
    | true =>
      have htrail : trail R.releases (is ++ [i]) = s.streak + 1 := by rw [trail_concat_pos hi, h.streak hon]
      rcases Nat.lt_or_ge (s.streak + 1) R.delay with hdelay | hdelay
      · have hshort : s.streak + 1 < R.row := lt_of_lt_of_le hdelay (Nat.le_max_right ..)
        rw [step_counted hon hi hdelay]
        refine ⟨?_, hshort, fun _ => htrail.symm⟩
        rw [holds_concat_iff, htrail]
        simp [hholds, hshort]
      · -- the row is complete, and an input that is counted does not set the latch again
        have hlong : R.row ≤ s.streak + 1 := Nat.max_le.2 ⟨Nat.succ_pos _, hdelay⟩
        have hsets : R.sets i = false := Bool.eq_false_iff.2 fun hs => by simp [R.apart i hs] at hi
        rw [step_released hon hi hdelay]
        refine ⟨?_, row_pos, by simp⟩
        rw [holds_concat_iff, htrail]
        simp [hsets, hlong]

theorem counts_run (R : Policy ι) (is : List ι) : R.Counts is (R.run is) := by
  induction is using List.reverseRecOn with
  | nil => exact ⟨by simp [run, not_holds_nil], row_pos, by simp [run]⟩
  | append_singleton is i ih =>
    rw [run_concat]
    exact ih.step i

/-- **The latch after a history.** -/
theorem on_run_iff : (R.run is).on = true ↔ R.Holds is := (R.counts_run is).on

end Policy

end Latch
