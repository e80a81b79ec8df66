import Gleipnir.Lib.Ranked
import Gleipnir.Sample

/-!
# Lineages of mandates

What a resolver answers about mandates that replace one another. A mandate is kept under its identifier, so the list of all is
strictly ascending in the identifiers, and each answer is a matter of which mandates there are.

* `active_put_iff`: registering a mandate changes what was in force before its time exactly if it supersedes something that
  was in force then
* `latest_iff`: the answer about the latest version is the end of the lineage exactly if that names the first mandate itself
-/

namespace Gleipnir

open Ranked

/-! ## The order of identifiers -/

theorem bytesLess_iff : ∀ a b : Bytes, bytesLess a b = true ↔ a.map UInt8.toNat < b.map UInt8.toNat
  | [], [] => by simp [bytesLess]
  | [], y :: b => by simp [bytesLess]
  | x :: a, [] => by simp [bytesLess]
  | x :: a, y :: b => by
    rw [bytesLess, List.map_cons, List.map_cons, List.cons_lt_cons_iff, UInt8.toNat_inj, ← UInt8.lt_iff_toNat_lt]
    split
    · rename_i hne
      simp [hne]
    · rename_i heq
      rw [not_not] at heq
      subst heq
      have hirrefl : ¬ x < x := UInt8.lt_irrefl x
      simp [hirrefl, bytesLess_iff a b]

/-- Of two strings of bytes one is below the other, or they are the same. -/
theorem eq_of_not_bytesLess {a b : Bytes} (hab : bytesLess a b = false) (hba : bytesLess b a = false) : a = b := by
  rw [← Bool.not_eq_true, bytesLess_iff, not_lt] at hab hba
  exact List.map_injective_iff.2 (fun _ _ h => UInt8.toNat_inj.1 h) (le_antisymm hba hab)

theorem bytesLess_asymm {a b : Bytes} (h : bytesLess a b = true) : bytesLess b a = false := by
  rw [bytesLess_iff] at h
  rw [← Bool.not_eq_true, bytesLess_iff]
  exact h.asymm

/-- The identifier of a mandate, as the order of the resolver reads it. -/
def MandateEntry.rank (m : MandateEntry) : List ℕ := m.id.toList.map UInt8.toNat

theorem MandateEntry.rank_inj {m n : MandateEntry} : m.rank = n.rank ↔ m.id = n.id := by
  unfold rank
  rw [(List.map_injective_iff.2 fun _ _ => UInt8.toNat_inj.1).eq_iff]
  exact ⟨fun h => List.Vector.toList_injective h, fun h => by rw [h]⟩

namespace MandateResolver

variable {r : MandateResolver} {m n : MandateEntry}

theorem mem_all {r : MandateResolver} {m : MandateEntry} : m ∈ r.all ↔ ∃ id, r.lookup id = some m := by
  rw [all, List.mem_insertionSort, List.mem_map]
  constructor
  · rintro ⟨⟨id, m⟩, hmem, rfl⟩
    exact ⟨id, AList.mem_lookup_iff.2 hmem⟩
  · rintro ⟨id, h⟩
    exact ⟨⟨id, m⟩, AList.mem_lookup_iff.1 h, rfl⟩

/-- Each mandate is kept under its identifier. -/
def Keyed (r : MandateResolver) : Prop := ∀ id m, r.lookup id = some m → m.id = id

section Keyed

variable (X : Prims)

theorem lookup_put_eq (r : MandateResolver) (m : MandateEntry) (id : Hash) : (r.put X m).lookup id =
    if id = m.mandateID X then some { m with id := m.mandateID X } else r.lookup id := by
  unfold put
  split
  · next h => rw [h, AList.lookup_insert]
  · next h => rw [AList.lookup_insert_ne h]

variable {X}

theorem Keyed.put (h : r.Keyed) (m : MandateEntry) : (r.put X m).Keyed := by
  intro id n hn
  rw [lookup_put_eq] at hn
  split at hn
  · next heq =>
    cases hn
    exact heq.symm
  · exact h id n hn

theorem keyed_newMandateResolver (mandates : List MandateEntry) : (newMandateResolver X mandates).Keyed := by
  unfold newMandateResolver
  refine List.foldlRecOn mandates _ (motive := Keyed) (fun id m h => ?_) fun r hr m _ => hr.put m
  rw [AList.lookup_empty] at h
  cases h

theorem Keyed.mem_all_iff (h : r.Keyed) : m ∈ r.all ↔ r.lookup m.id = some m := by
  rw [mem_all]
  refine ⟨?_, fun hm => ⟨m.id, hm⟩⟩
  rintro ⟨id, hid⟩
  rwa [h id m hid]

/-- A mandate is known by its identifier. -/
theorem Keyed.eq_of_id (h : r.Keyed) (hm : m ∈ r.all) (hn : n ∈ r.all) (heq : m.id = n.id) : m = n := by
  rw [h.mem_all_iff] at hm hn
  rw [heq] at hm
  exact Option.some.inj (hm.symm.trans hn)

/-- The mandates are listed by ascending identifiers. -/
theorem Keyed.ascending (h : r.Keyed) : Ascending MandateEntry.rank r.all := by
  have hrel : ∀ a b : MandateEntry, bytesLess b.id.toList a.id.toList = false ↔ a.rank ≤ b.rank := by
    intro a b
    rw [← Bool.not_eq_true, bytesLess_iff, not_lt]
    rfl
  have htotal : Std.Total fun a b : MandateEntry => bytesLess b.id.toList a.id.toList = false :=
    ⟨fun a b => by rw [hrel, hrel]; exact le_total _ _⟩
  have htrans : IsTrans MandateEntry fun a b => bytesLess b.id.toList a.id.toList = false :=
    ⟨fun a b c => by rw [hrel, hrel, hrel]; exact le_trans⟩
  have hsorted : r.all.Pairwise fun a b => a.rank ≤ b.rank :=
    (List.pairwise_insertionSort _ _).imp fun {a b} hab => (hrel a b).1 hab
  have hkeys : (r.entries.map (·.2)).map (·.id) = r.keys := by
    rw [List.map_map]
    exact List.map_congr_left fun s hs => h s.1 s.2 (AList.mem_lookup_iff.2 hs)
  have hdistinct : r.all.Pairwise fun a b => a.id ≠ b.id := by
    refine (List.Perm.pairwise_iff (fun hab => Ne.symm hab) (List.perm_insertionSort _ _)).2 (List.pairwise_map.1 ?_)
    rw [hkeys]
    exact r.keys_nodup
  exact (hsorted.and hdistinct).imp fun hab => lt_of_le_of_ne hab.1 fun heq => hab.2 (MandateEntry.rank_inj.1 heq)

end Keyed

/-! ## The mandates in force -/

/-- In force are the mandates within their time that no known mandate supersedes. -/
theorem mem_getActiveMandates {timestamp : Int64} :
    m ∈ r.getActiveMandates timestamp ↔
      m ∈ r.all ∧ (∀ n ∈ r.all, n.supersedes = m.id → m.id = Arr.zero 32) ∧ m.isActiveAt timestamp = true := by
  have hsuperseded : m.id ∉ (r.all.map (·.supersedes)).filter (· ≠ Arr.zero 32) ↔
      ∀ n ∈ r.all, n.supersedes = m.id → m.id = Arr.zero 32 := by
    rw [List.mem_filter, List.mem_map, decide_eq_true_iff, not_and]
    constructor
    · intro h n hn hs
      by_contra hne
      exact h ⟨n, hn, hs⟩ hne
    · rintro h ⟨n, hn, hs⟩ hne
      exact hne (h n hn hs)
  rw [getActiveMandates, List.mem_filter, Bool.and_eq_true, decide_eq_true_iff, hsuperseded]

end MandateResolver

/-- The mandate names `m` as the one it supersedes. The zero identifier stands for none. -/
def MandateEntry.Overrides (n m : MandateEntry) : Prop := n.supersedes ≠ Arr.zero 32 ∧ n.supersedes = m.id

namespace MandateResolver

variable {r : MandateResolver} {m n : MandateEntry} {timestamp : Int64}

theorem mem_getActiveMandates_iff : m ∈ r.getActiveMandates timestamp ↔
    m ∈ r.all ∧ m.isActiveAt timestamp = true ∧ ∀ n ∈ r.all, ¬ n.Overrides m := by
  rw [mem_getActiveMandates, and_comm (a := ∀ n ∈ r.all, _)]
  refine and_congr_right fun _ => and_congr_right fun _ => forall₂_congr fun n _ => ?_
  constructor
  · rintro h ⟨hne, hs⟩
    exact hne (hs.trans (h hs))
  · intro h hs
    by_contra hne
    exact h ⟨by rwa [hs], hs⟩

/-- Registering `m` leaves what is in force at `timestamp` alone: it takes nothing out of force that the mandate with its
identifier, if there was one, left in force, it puts nothing back into force, and that mandate itself was not in force. -/
structure Undisturbed (X : Prims) (r : MandateResolver) (m : MandateEntry) (timestamp : Int64) : Prop where
  replaced : ∀ old, r.lookup (m.mandateID X) = some old → old.isActiveAt timestamp = true → ∃ n ∈ r.all, n.Overrides old
  others : ∀ x ∈ r.all, x.id ≠ m.mandateID X → x.isActiveAt timestamp = true →
    (∀ n ∈ r.all, n.id ≠ m.mandateID X → ¬ n.Overrides x) →
    (m.Overrides x ↔ ∃ old, r.lookup (m.mandateID X) = some old ∧ old.Overrides x)

section Put

variable {X : Prims}

/-- The mandates after a registration. -/
theorem Keyed.mem_all_put (h : r.Keyed) : n ∈ (r.put X m).all ↔
    n = { m with id := m.mandateID X } ∨ n ∈ r.all ∧ n.id ≠ m.mandateID X := by
  rw [(h.put m).mem_all_iff, h.mem_all_iff, lookup_put_eq]
  split
  · next heq =>
    constructor
    · intro hn
      exact .inl (Option.some.inj hn).symm
    · rintro (rfl | ⟨-, hne⟩)
      · rfl
      · exact absurd heq hne
  · next hne =>
    constructor
    · intro hn
      exact .inr ⟨hn, hne⟩
    · rintro (rfl | ⟨hn, -⟩)
      · exact absurd rfl hne
      · exact hn

/-- Before its time, the registered mandate is not in force; the others are if neither it nor another one supersedes them. -/
theorem Keyed.mem_active_put (h : r.Keyed) (hlater : timestamp < m.validFrom) {x : MandateEntry} :
    x ∈ (r.put X m).getActiveMandates timestamp ↔ x ∈ r.all ∧ x.id ≠ m.mandateID X ∧ x.isActiveAt timestamp = true ∧
      (∀ n ∈ r.all, n.id ≠ m.mandateID X → ¬ n.Overrides x) ∧ ¬ m.Overrides x := by
  have hinactive : ({ m with id := m.mandateID X } : MandateEntry).isActiveAt timestamp = false := by
    simp [MandateEntry.isActiveAt, hlater]
  have hoverrides : ({ m with id := m.mandateID X } : MandateEntry).Overrides x ↔ m.Overrides x := Iff.rfl
  rw [mem_getActiveMandates_iff, h.mem_all_put]
  simp only [h.mem_all_put, or_imp, forall_and, forall_eq, hoverrides, and_imp]
  constructor
  · rintro ⟨rfl | ⟨hx, hne⟩, hactive, hm, hothers⟩
    · rw [hinactive] at hactive
      cases hactive
    · exact ⟨hx, hne, hactive, hothers, hm⟩
  · rintro ⟨hx, hne, hactive, hothers, hm⟩
    exact ⟨.inr ⟨hx, hne⟩, hactive, hm, hothers⟩

/-- What a mandate other than the replaced one needs to be in force before the registration. -/
theorem Keyed.mem_active_iff (h : r.Keyed) (id : Hash) {x : MandateEntry} : x ∈ r.getActiveMandates timestamp ↔
    x ∈ r.all ∧ x.isActiveAt timestamp = true ∧ (∀ n ∈ r.all, n.id ≠ id → ¬ n.Overrides x) ∧
      ¬ ∃ old, r.lookup id = some old ∧ old.Overrides x := by
  rw [mem_getActiveMandates_iff]
  refine and_congr_right fun _ => and_congr_right fun _ => ⟨fun hall => ⟨fun n hn _ => hall n hn, ?_⟩, ?_⟩
  · rintro ⟨old, hold, hover⟩
    exact hall old (mem_all.2 ⟨id, hold⟩) hover
  · rintro ⟨hothers, hnot⟩ n hn hover
    by_cases hid : n.id = id
    · exact hnot ⟨n, by rw [← hid]; exact h.mem_all_iff.1 hn, hover⟩
    · exact hothers n hn hid hover

/-- A mandate that is in force then is not the one that gets replaced. -/
theorem Undisturbed.ne_of_active (h : Undisturbed X r m timestamp) (hkeyed : r.Keyed) {x : MandateEntry}
    (hx : x ∈ r.getActiveMandates timestamp) : x.id ≠ m.mandateID X := by
  intro hid
  obtain ⟨hall, hactive, hnone⟩ := mem_getActiveMandates_iff.1 hx
  have hlookup := hkeyed.mem_all_iff.1 hall
  rw [hid] at hlookup
  obtain ⟨n, hn, hover⟩ := h.replaced x hlookup hactive
  exact hnone n hn hover

end Put

end MandateResolver

open MandateResolver in
/-- **A mandate and the time before it.** For every content of a resolver, every mandate and every time before it comes into
force: `Put` leaves `GetActiveMandates` at that time unchanged exactly if it takes nothing out of force there and puts nothing
back into force. -/
theorem active_put_iff (X : Prims) (mandates : List MandateEntry) (m : MandateEntry) {timestamp : Int64}
    (hlater : timestamp < m.validFrom) :
    ((newMandateResolver X mandates).put X m).getActiveMandates timestamp =
        (newMandateResolver X mandates).getActiveMandates timestamp ↔
      Undisturbed X (newMandateResolver X mandates) m timestamp := by
  have hkeyed := keyed_newMandateResolver (X := X) mandates
  generalize newMandateResolver X mandates = r at hkeyed ⊢
  constructor
  · intro heq
    have hmem : ∀ x, x ∈ (r.put X m).getActiveMandates timestamp ↔ x ∈ r.getActiveMandates timestamp := by simp [heq]
    constructor
    case replaced =>
      intro old hold hactive
      by_contra hnone
      push Not at hnone
      have hin := mem_getActiveMandates_iff.2 ⟨mem_all.2 ⟨_, hold⟩, hactive, hnone⟩
      exact ((hkeyed.mem_active_put hlater).1 ((hmem old).2 hin)).2.1 (hkeyed _ _ hold)
    case others =>
      intro x hx hne hactive hothers
      have hx' := hmem x
      rw [hkeyed.mem_active_put hlater, hkeyed.mem_active_iff (m.mandateID X)] at hx'
      refine not_iff_not.1 ⟨fun hm => ?_, fun hold => ?_⟩
      · exact (hx'.1 ⟨hx, hne, hactive, hothers, hm⟩).2.2.2
      · exact (hx'.2 ⟨hx, hactive, hothers, hold⟩).2.2.2.2
  · intro hund
    refine Ascending.ext ((hkeyed.put m).ascending.filter _) (hkeyed.ascending.filter _) fun x => ?_
    rw [hkeyed.mem_active_put hlater]
    constructor
    · rintro ⟨hx, hne, hactive, hothers, hm⟩
      exact (hkeyed.mem_active_iff (m.mandateID X)).2
        ⟨hx, hactive, hothers, fun hold => hm ((hund.others x hx hne hactive hothers).2 hold)⟩
    · intro hin
      have hne := hund.ne_of_active hkeyed hin
      obtain ⟨hx, hactive, hothers, hnot⟩ := (hkeyed.mem_active_iff (m.mandateID X)).1 hin
      exact ⟨hx, hne, hactive, hothers, fun hm => hnot ((hund.others x hx hne hactive hothers).1 hm)⟩

namespace Sample

/-- A mandate of the first validator without rules. -/
def versionOf (version : UInt64) (validFrom : Int64) (prevVersion supersedes : Hash) : MandateEntry :=
  let draft : MandateEntry := {
    id := Arr.zero 32
    authority := Arr.copy 16 [1]
    version, prevVersion, validFrom, supersedes
    validUntil := 0
    rules := []
    policyHash := Arr.zero 32
    policyURI := []
    signature := [] }
  { draft with id := draft.mandateID prims }

def firstVersion : MandateEntry := versionOf 1 1 (Arr.zero 32) (Arr.zero 32)

/-- What the resolver that knows the first version has in force at the time `50`, and what it has after a second version for
the time from `100` on, one that supersedes the first and one that does not. -/
def inForce (supersedes : Hash) : List MandateEntry × List MandateEntry :=
  let r := MandateResolver.newMandateResolver prims [firstVersion]
  (r.getActiveMandates 50, (r.put prims (versionOf 2 100 (Arr.zero 32) supersedes)).getActiveMandates 50)

def inForceAfter : Computed (inForce firstVersion.id, inForce (Arr.zero 32)) fun x =>
    x.1.1 = [firstVersion] ∧ x.1.2 = [] ∧ x.2.1 = [firstVersion] ∧ x.2.2 = [firstVersion] :=
  computed _ (by decide +kernel)

/-- The second version that supersedes nothing leaves the past alone. -/
theorem second_version_undisturbed : (50 : Int64) < (versionOf 2 100 (Arr.zero 32) (Arr.zero 32)).validFrom ∧
    (MandateResolver.newMandateResolver prims [firstVersion]).Undisturbed prims
      (versionOf 2 100 (Arr.zero 32) (Arr.zero 32)) 50 := by
  obtain ⟨x, hx, -, -, hbefore, hafter⟩ := inForceAfter
  subst hx
  have hlater : (50 : Int64) < (versionOf 2 100 (Arr.zero 32) (Arr.zero 32)).validFrom := by
    change (50 : Int64) < 100
    decide
  exact ⟨hlater, (active_put_iff prims [firstVersion] _ hlater).1 (hafter.trans hbefore.symm)⟩

/-- The second version that supersedes the first takes it out of force at a time when it was the only one. -/
theorem second_version_rewrites_past : (50 : Int64) < (versionOf 2 100 (Arr.zero 32) firstVersion.id).validFrom ∧
    (MandateResolver.newMandateResolver prims [firstVersion]).getActiveMandates 50 = [firstVersion] ∧
    ((MandateResolver.newMandateResolver prims [firstVersion]).put prims
      (versionOf 2 100 (Arr.zero 32) firstVersion.id)).getActiveMandates 50 = [] := by
  obtain ⟨x, hx, hbefore, hafter, -⟩ := inForceAfter
  subst hx
  refine ⟨?_, hbefore, hafter⟩
  change (50 : Int64) < 100
  decide

end Sample

/-! ## The latest version -/

/-- The mandate names the identifier as that of its previous version or of what it supersedes. -/
def MandateEntry.LinksTo (m : MandateEntry) (id : Hash) : Prop := m.prevVersion = id ∨ m.supersedes = id

/-- The version of the mandate is higher, or the same with a smaller identifier. -/
def MandateEntry.Outranks (n m : MandateEntry) : Prop :=
  m.version < n.version ∨ n.version = m.version ∧ bytesLess n.id.toList m.id.toList = true

/-- Known mandates, each of which links to the one before it and has a higher version. -/
structure MandateResolver.Lineage (r : MandateResolver) (chain : List MandateEntry) : Prop where
  known : ∀ m ∈ chain, m ∈ r.all
  linked : chain.IsChain fun m n => n.LinksTo m.id
  ascending : chain.IsChain fun m n => m.version < n.version

namespace MandateResolver

variable {r : MandateResolver} {m : MandateEntry}

/-- The loop of `GetLatestVersion` keeps the first of the highest versions. -/
theorem getLatestVersion_eq (r : MandateResolver) (root : Hash) : r.getLatestVersion root =
    (r.all.filter fun m => m.id = root || m.prevVersion = root || m.supersedes = root).argmax (·.version.toNat) := by
  unfold getLatestVersion List.argmax
  congr 1
  funext latest m
  cases latest with
  | none => rfl
  | some l => simp only [List.argAux, UInt64.lt_iff_toNat_lt]

/-- The answer is the mandate in the family of the root that no other one outranks. -/
theorem Keyed.getLatestVersion_eq_some_iff (h : r.Keyed) {root : Hash} : r.getLatestVersion root = some m ↔
    (m ∈ r.all ∧ (m.id = root ∨ m.LinksTo root)) ∧
      ∀ n ∈ r.all, (n.id = root ∨ n.LinksTo root) → n ≠ m → ¬ n.Outranks m := by
  have hfamily : ∀ n : MandateEntry, (n.id = root || n.prevVersion = root || n.supersedes = root) = true ↔
      n.id = root ∨ n.LinksTo root := by
    intro n
    simp only [Bool.or_eq_true, decide_eq_true_iff, MandateEntry.LinksTo, or_assoc]
  rw [getLatestVersion_eq, (h.ascending.filter _).argmax_eq_some_iff]
  simp only [List.mem_filter, hfamily, and_imp]
  refine and_congr_right fun hm => forall₂_congr fun n hn => forall₂_congr fun _ hne => ?_
  -- two mandates with different identifiers have different ranks
  have hrank : n.rank ≠ m.rank := fun heq => hne (h.eq_of_id hn hm.1 (MandateEntry.rank_inj.1 heq))
  rw [MandateEntry.Outranks, bytesLess_iff, UInt64.lt_iff_toNat_lt, ← UInt64.toNat_inj]
  change _ ↔ ¬ (_ ∨ _ ∧ n.rank < m.rank)
  rcases lt_trichotomy n.version.toNat m.version.toNat with hlt | heq | hgt
  · simp [hlt, hlt.not_gt, hlt.ne]
  · simp only [heq, lt_irrefl, false_or, true_and, not_lt]
    exact ⟨le_of_lt, fun hle => lt_of_le_of_ne hle hrank.symm⟩
  · simp [hgt, hgt.not_gt, hgt.ne']

theorem getLatestVersion_mem {root : Hash} (h : r.getLatestVersion root = some m) : m ∈ r.all := by
  rw [getLatestVersion_eq] at h
  exact (List.mem_filter.1 (List.argmax_mem h)).1

/-- The last mandate of a lineage has a higher version than the others. -/
theorem Lineage.version_lt {chain : List MandateEntry} (h : r.Lineage chain) {last n : MandateEntry}
    (hlast : chain.getLast? = some last) (hn : n ∈ chain) (hne : n ≠ last) : n.version.toNat < last.version.toNat := by
  have hpairwise : chain.Pairwise fun m n => m.version.toNat < n.version.toNat := by
    have htrans : IsTrans MandateEntry fun m n => m.version.toNat < n.version.toNat := ⟨fun _ _ _ => lt_trans⟩
    exact List.isChain_iff_pairwise.1 (h.ascending.imp fun _ _ hlt => UInt64.lt_iff_toNat_lt.1 hlt)
  obtain ⟨before, rfl⟩ := List.getLast?_eq_some_iff.1 hlast
  rcases List.mem_append.1 hn with hn | hn
  · exact (List.pairwise_append.1 hpairwise).2.2 n hn last (List.mem_singleton.2 rfl)
  · exact absurd (List.mem_singleton.1 hn) hne

end MandateResolver

open MandateResolver in
/-- **The latest version of a lineage.** For every content of a resolver and every lineage in it: `GetLatestVersion` of the first
mandate's identifier returns the last mandate exactly if the last one is the first or links to it itself, and no mandate
outside of the lineage that links to the first one outranks the last. -/
theorem latest_iff (X : Prims) (mandates : List MandateEntry) {chain : List MandateEntry} {first last : MandateEntry}
    (hchain : (newMandateResolver X mandates).Lineage chain) (hfirst : chain.head? = some first)
    (hlast : chain.getLast? = some last) :
    (newMandateResolver X mandates).getLatestVersion first.id = some last ↔
      (last = first ∨ last.LinksTo first.id) ∧
      ∀ n ∈ (newMandateResolver X mandates).all, n ∉ chain → n.LinksTo first.id → ¬ n.Outranks last := by
  have hkeyed := keyed_newMandateResolver (X := X) mandates
  generalize newMandateResolver X mandates = r at hkeyed hchain ⊢
  have hfirstMem := List.mem_of_mem_head? hfirst
  have hlastMem := List.mem_of_getLast? hlast
  -- whatever has the identifier of the first mandate is that mandate
  have hid : ∀ n ∈ r.all, n.id = first.id → n = first := fun n hn =>
    hkeyed.eq_of_id hn (hchain.known first hfirstMem)
  rw [hkeyed.getLatestVersion_eq_some_iff]
  constructor
  · rintro ⟨⟨hknown, hfamily⟩, hbest⟩
    refine ⟨hfamily.imp_left (hid last hknown), fun n hn hout hlinks => hbest n hn (.inr hlinks) ?_⟩
    rintro rfl
    exact hout hlastMem
  · rintro ⟨hfamily, hbest⟩
    refine ⟨⟨hchain.known last hlastMem, hfamily.imp_left fun heq => by rw [heq]⟩, fun n hn hlinks hne => ?_⟩
    by_cases hin : n ∈ chain
    · have hlt := hchain.version_lt hlast hin hne
      rintro (hgt | ⟨heq, -⟩)
      · rw [UInt64.lt_iff_toNat_lt] at hgt
        omega
      · rw [heq] at hlt
        exact lt_irrefl _ hlt
    · refine hbest n hn hin (hlinks.resolve_left fun heq => hin ?_)
      rwa [hid n hn heq]

namespace Sample

/-- The second and the third version, each of which names the one before it. -/
def secondVersion : MandateEntry := versionOf 2 1 firstVersion.id (Arr.zero 32)

def thirdVersion : MandateEntry := versionOf 3 1 secondVersion.id (Arr.zero 32)

/-- What the resolver that knows the three versions lists and what it takes for the latest one; the same for the first two. -/
def latestOf (mandates : List MandateEntry) : List MandateEntry × Option MandateEntry :=
  ((MandateResolver.newMandateResolver prims mandates).all,
    (MandateResolver.newMandateResolver prims mandates).getLatestVersion firstVersion.id)

def latestVersions : Computed
    (latestOf [firstVersion, secondVersion, thirdVersion], latestOf [firstVersion, secondVersion]) fun x =>
      (∀ m ∈ [firstVersion, secondVersion, thirdVersion], m ∈ x.1.1) ∧
      (∀ m ∈ x.1.1, m ∈ [firstVersion, secondVersion, thirdVersion]) ∧ x.1.2 = some secondVersion ∧
      secondVersion ≠ thirdVersion ∧ (∀ m ∈ [firstVersion, secondVersion], m ∈ x.2.1) ∧ x.2.2 = some secondVersion :=
  computed _ (by decide +kernel)

/-- The second version names the first, and nothing outranks it. -/
theorem second_version_latest :
    (MandateResolver.newMandateResolver prims [firstVersion, secondVersion]).Lineage [firstVersion, secondVersion] ∧
    secondVersion.LinksTo firstVersion.id ∧
    ∀ n ∈ (MandateResolver.newMandateResolver prims [firstVersion, secondVersion]).all, n ∉ [firstVersion, secondVersion] →
      n.LinksTo firstVersion.id → ¬ n.Outranks secondVersion := by
  obtain ⟨x, hx, -, -, -, -, hknown, hlatest⟩ := latestVersions
  subst hx
  have hlineage : (MandateResolver.newMandateResolver prims [firstVersion, secondVersion]).Lineage
      [firstVersion, secondVersion] :=
    ⟨hknown, .cons_cons (.inl rfl) (.singleton _), .cons_cons (by decide) (.singleton _)⟩
  exact ⟨hlineage, .inl rfl, ((latest_iff prims _ hlineage rfl rfl).1 hlatest).2⟩

/-- Of three versions the second is taken for the latest, since the third does not name the first. -/
theorem third_version_overlooked :
    (MandateResolver.newMandateResolver prims [firstVersion, secondVersion, thirdVersion]).Lineage
      [firstVersion, secondVersion, thirdVersion] ∧
    (∀ n ∈ (MandateResolver.newMandateResolver prims [firstVersion, secondVersion, thirdVersion]).all,
      n ∈ [firstVersion, secondVersion, thirdVersion]) ∧
    (MandateResolver.newMandateResolver prims [firstVersion, secondVersion, thirdVersion]).getLatestVersion firstVersion.id ≠
      some thirdVersion := by
  obtain ⟨x, hx, hknown, honly, hlatest, hne, -⟩ := latestVersions
  subst hx
  refine ⟨⟨hknown, .cons_cons (.inl rfl) (.cons_cons (.inl rfl) (.singleton _)),
    .cons_cons (by decide) (.cons_cons (by decide) (.singleton _))⟩, honly, ?_⟩
  intro heq
  exact hne (Option.some.inj (hlatest.symm.trans heq))

end Sample

end Gleipnir
