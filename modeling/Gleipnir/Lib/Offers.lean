import Mathlib.Data.List.Nodup
import Mathlib.Logic.Basic

/-!
# Entries offered one after another

An entry that is offered joins a journal at its end, provided that the journal lets it in as it is at that moment (`ok`); an
entry that is turned away is not offered again. So the journal depends on the order of the offers in general.

* `journal_foldl`: a fold that keeps a journal for each owner treats the owners apart.
* `observe_offerAll`: where one entry alone can open the journal, and nothing after it matters to an observer, all orders look
  like that entry alone.
-/

namespace Offers

variable {E : Type}

section Journal

variable (ok : List E → E → Prop)

open Classical in
/-- One offer. -/
noncomputable def offer (journal : List E) (e : E) : List E := if ok journal e then journal ++ [e] else journal

/-- Offers one after the other. -/
noncomputable def offerAll (journal : List E) (offers : List E) : List E := offers.foldl (offer ok) journal

variable {ok} {journal offers : List E} {e : E}

theorem offer_pos (h : ok journal e) : offer ok journal e = journal ++ [e] := if_pos h

theorem offer_neg (h : ¬ ok journal e) : offer ok journal e = journal := if_neg h

theorem offerAll_append (journal offers later : List E) :
    offerAll ok journal (offers ++ later) = offerAll ok (offerAll ok journal offers) later := List.foldl_append

theorem offerAll_cons_pos (h : ok journal e) : offerAll ok journal (e :: offers) = offerAll ok (journal ++ [e]) offers := by
  rw [offerAll, List.foldl_cons, offer_pos h]
  rfl

/-- Offers that are all turned away. -/
theorem offerAll_of_none (h : ∀ e ∈ offers, ¬ ok journal e) : offerAll ok journal offers = journal := by
  induction offers with
  | nil => rfl
  | cons e offers ih =>
    rw [offerAll, List.foldl_cons, offer_neg (h e List.mem_cons_self)]
    exact ih fun e' he' => h e' (List.mem_cons_of_mem _ he')

/-- A journal only grows, by entries that were offered. -/
theorem offerAll_extends (ok : List E → E → Prop) (offers : List E) : ∀ journal, ∃ later,
    offerAll ok journal offers = journal ++ later ∧ ∀ e ∈ later, e ∈ offers := by
  induction offers with
  | nil => intro journal; exact ⟨[], (List.append_nil _).symm, nofun⟩
  | cons e offers ih =>
    intro journal
    by_cases hok : ok journal e
    · obtain ⟨later, hlater, hmem⟩ := ih (journal ++ [e])
      refine ⟨e :: later, ?_, List.cons_subset_cons e hmem⟩
      rw [offerAll_cons_pos hok, hlater, List.append_assoc, List.singleton_append]
    · obtain ⟨later, hlater, hmem⟩ := ih journal
      refine ⟨later, ?_, fun e' he' => List.mem_cons_of_mem _ (hmem e' he')⟩
      rw [offerAll, List.foldl_cons, offer_neg hok]
      exact hlater

/-- **The only entry that can open the journal** opens it in every order, and an observer to whom what follows makes no
difference sees that entry alone. -/
theorem observe_offerAll {O : Type} {observe : List E → O} (he : e ∈ offers) (hnodup : offers.Nodup) (hok : ok [] e)
    (hsole : ∀ f ∈ offers, f ≠ e → ¬ ok [] f ∧ (ok [e] f → ∀ later, observe (e :: later) = observe [e])) :
    observe (offerAll ok [] offers) = observe [e] := by
  obtain ⟨before, after, rfl⟩ := List.append_of_mem he
  have hne : ∀ f ∈ before ++ after, f ≠ e := fun f hf heq =>
    (List.nodup_cons.1 (List.perm_middle.nodup_iff.1 hnodup)).1 (heq ▸ hf)
  have hmem : ∀ f ∈ before ++ after, f ∈ before ++ e :: after := fun f hf =>
    List.perm_middle.mem_iff.2 (List.mem_cons_of_mem _ hf)
  have hbefore : offerAll ok [] before = [] := offerAll_of_none fun f hf =>
    (hsole f (hmem f (List.mem_append_left _ hf)) (hne f (List.mem_append_left _ hf))).1
  rw [offerAll_append, hbefore, offerAll_cons_pos hok, List.nil_append]
  by_cases hnone : ∀ f ∈ after, ¬ ok [e] f
  · rw [offerAll_of_none hnone]
  · -- something follows, so the observer does not see what
    obtain ⟨f, hf, hfollows⟩ : ∃ f ∈ after, ok [e] f := by simpa using hnone
    obtain ⟨later, hlater, -⟩ := offerAll_extends ok after [e]
    rw [hlater]
    have hf' : f ∈ before ++ after := List.mem_append_right _ hf
    exact (hsole f (hmem f hf') (hne f hf')).2 hfollows later

end Journal

/-- **Owners apart**: when each step of a fold offers the entry to the journal of its owner and leaves the other journals as
they are, the journal of an owner is made of the entries of that owner alone. -/
theorem journal_foldl {V ι : Type} [DecidableEq ι] {step : V → E → V} (journal : V → ι → List E) (owner : E → ι)
    (ok : ι → List E → E → Prop) {Inv : V → Prop} (hinv : ∀ v e, Inv v → Inv (step v e))
    (hstep : ∀ v e i, Inv v →
      journal (step v e) i = if owner e = i then offer (ok i) (journal v i) e else journal v i) (i : ι) :
    ∀ (offers : List E) (v : V), Inv v →
      journal (offers.foldl step v) i = offerAll (ok i) (journal v i) (offers.filter fun e => owner e = i) := by
  intro offers
  induction offers with
  | nil => intro v _; rfl
  | cons e offers ih =>
    intro v hv
    rw [List.foldl_cons, ih _ (hinv v e hv), hstep v e i hv]
    by_cases hi : owner e = i
    · rw [if_pos hi, List.filter_cons_of_pos (by simpa using hi)]
      rfl
    · rw [if_neg hi, List.filter_cons_of_neg (by simpa using hi)]

end Offers
