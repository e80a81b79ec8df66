import Mathlib.Data.List.MinMax
import Mathlib.Data.List.Nodup

/-!
# Lists in the order of a rank

A list whose elements have strictly ascending ranks. It is determined by its elements (`Ascending.ext`), and the first of its
best elements is the one that beats every other by its value or, at the same value, by its rank
(`Ascending.argmax_eq_some_iff`).
-/

namespace Ranked

variable {α κ β : Type*} [LinearOrder κ] [LinearOrder β] {rank : α → κ} {l l' : List α}

/-- The ranks of the elements ascend. -/
def Ascending (rank : α → κ) (l : List α) : Prop := l.Pairwise fun a b => rank a < rank b

theorem Ascending.filter (h : Ascending rank l) (p : α → Bool) : Ascending rank (l.filter p) :=
  List.Pairwise.filter p h

theorem Ascending.nodup (h : Ascending rank l) : l.Nodup :=
  List.Pairwise.imp (fun hlt heq => hlt.ne (congrArg rank heq)) h

/-- Two such lists with the same elements are the same. -/
theorem Ascending.ext (h : Ascending rank l) (h' : Ascending rank l') (hmem : ∀ a, a ∈ l ↔ a ∈ l') : l = l' :=
  List.Perm.eq_of_pairwise (fun _ _ _ _ hlt hgt => absurd hgt hlt.asymm) h h'
    ((List.perm_ext_iff_of_nodup h.nodup h'.nodup).2 hmem)

/-- The order of two elements is that of their ranks. -/
theorem Ascending.idxOf_lt_iff [DecidableEq α] (h : Ascending rank l) {a b : α} (ha : a ∈ l) (hb : b ∈ l) :
    l.idxOf a < l.idxOf b ↔ rank a < rank b := by
  have hpair : ∀ {x y : α}, x ∈ l → y ∈ l → l.idxOf x < l.idxOf y → rank x < rank y := by
    intro x y hx hy hlt
    have hrank := List.pairwise_iff_getElem.1 h _ _ (List.idxOf_lt_length_of_mem hx) (List.idxOf_lt_length_of_mem hy) hlt
    rwa [List.getElem_idxOf, List.getElem_idxOf] at hrank
  refine ⟨hpair ha hb, fun hlt => ?_⟩
  by_contra hge
  rcases (not_lt.1 hge).lt_or_eq with hgt | heq
  · exact lt_asymm hlt (hpair hb ha hgt)
  · rw [(List.idxOf_inj hb).1 heq] at hlt
    exact lt_irrefl _ hlt

/-- **The first of the best.** -/
theorem Ascending.argmax_eq_some_iff [DecidableEq α] (h : Ascending rank l) {f : α → β} {m : α} :
    l.argmax f = some m ↔ m ∈ l ∧ ∀ a ∈ l, a ≠ m → f a < f m ∨ f a = f m ∧ rank m < rank a := by
  rw [← Option.mem_def, List.mem_argmax_iff]
  refine and_congr_right fun hm => ⟨?_, fun hbeats => ⟨fun a ha => ?_, fun a ha hle => ?_⟩⟩
  · rintro ⟨hbest, hfirst⟩ a ha hne
    rcases (hbest a ha).lt_or_eq with hlt | heq
    · exact .inl hlt
    · refine .inr ⟨heq, (h.idxOf_lt_iff hm ha).1 (lt_of_le_of_ne (hfirst a ha heq.ge) fun hidx => hne ?_)⟩
      exact ((List.idxOf_inj hm).1 hidx).symm
  · by_cases heq : a = m
    · rw [heq]
    · exact (hbeats a ha heq).elim le_of_lt fun htie => htie.1.le
  · by_cases heq : a = m
    · rw [heq]
    · rcases hbeats a ha heq with hlt | ⟨-, hrank⟩
      · exact absurd hle hlt.not_ge
      · exact ((h.idxOf_lt_iff hm ha).2 hrank).le

end Ranked
