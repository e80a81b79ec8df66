import Gleipnir.Lib.Offers
import Gleipnir.LightClient.Rotations
import Gleipnir.Validation.ActiveKeys

/-!
# The order in which rotations arrive

A node is offered rotations in the order in which they reach it, a light client in the order in which its anchor lists them.
Both refuse a rotation that does not take effect after the last one recorded, and one that is signed by a key which no
recorded rotation has brought yet; neither looks at a refused rotation again. So the keys depend on the order:
`sameKeys_iff` says for which sets of rotations they do not.
-/

namespace Gleipnir.LightClient

open KeyRotationValidator Offers

variable (X : Prims)

/-! ## Orders -/

/-- The rotations of a set, in some order. -/
def Orders (S : Finset KeyRotationEntry) (l : List KeyRotationEntry) : Prop := l.Nodup ∧ ∀ r, r ∈ l ↔ r ∈ S

/-- The key is active for a validator in a cycle. -/
def ActiveKey (v : KeyRotationValidator) (id : RootID) (cycle : UInt64) (pk : Arr 1952) : Prop :=
  ∃ keys, v.getActivePublicKey id cycle = some keys ∧ pk ∈ keys

/-- All orders of a set lead to the same active keys. -/
def SameKeys (S : Finset KeyRotationEntry) (resolve : List KeyRotationEntry → KeyRotationValidator) : Prop :=
  ∀ l l', Orders S l → Orders S l' → ∀ id cycle pk, ActiveKey (resolve l) id cycle pk ↔ ActiveKey (resolve l') id cycle pk

/-- A new validator after `ValidateAndRecord` of each rotation. -/
def offered (validators : List ValidatorInfo) (current : UInt64) (cfg : Config) (l : List KeyRotationEntry) :
    KeyRotationValidator :=
  l.foldl (fun v r => step X v (.validateAndRecord r)) (new validators current cfg)

/-- The resolver of a client whose anchor lists the rotations. -/
def listed (anchor : TrustAnchor) (l : List KeyRotationEntry) : KeyRotationValidator :=
  newKeyResolver X { anchor with rotations := l.map some }

/-- Of the rotations of a known validator at most one is acceptable at first, and after it no other one is, unless its
window never closes. -/
def NoConflict (validators : List ValidatorInfo)
    (accepts : Arr 1952 → List KeyRotationEntry → KeyRotationEntry → Prop) (S : Finset KeyRotationEntry) : Prop :=
  ∀ e ∈ S, ∀ f ∈ S, f ≠ e → f.submitter = e.submitter → ∀ registered,
    (validatorKeys validators).lookup e.submitter = some registered → accepts registered [] e →
      ¬ accepts registered [] f ∧ (accepts registered [e] f → e.expiryCycle.toNat = 2 ^ 64 - 1)

/-- The rotations of a known validator bring new keys, each its own. -/
def DistinctKeys (validators : List ValidatorInfo) (S : Finset KeyRotationEntry) : Prop :=
  ∀ e ∈ S, ∀ registered, (validatorKeys validators).lookup e.submitter = some registered →
    e.newPublicKey ≠ registered ∧ ∀ f ∈ S, f ≠ e → f.submitter = e.submitter → f.newPublicKey ≠ e.newPublicKey

/-! ## The journals -/

/-- A way to resolve keys from a list of rotations, which lets a rotation into the history of its submitter by the rules
`accepts`. -/
structure Resolves (validators : List ValidatorInfo)
    (accepts : Arr 1952 → List KeyRotationEntry → KeyRotationEntry → Prop)
    (resolve : List KeyRotationEntry → KeyRotationValidator) : Prop where
  newer : ∀ registered history r, accepts registered history r → Newer history r
  known : ∀ l, (resolve l).validators = validatorKeys validators
  rotations : ∀ l id registered, (validatorKeys validators).lookup id = some registered →
    (resolve l).rotations id = offerAll (accepts registered) [] (l.filter fun r => r.submitter = id)

section Resolves

variable {X} {validators : List ValidatorInfo} {S : Finset KeyRotationEntry}
  {accepts : Arr 1952 → List KeyRotationEntry → KeyRotationEntry → Prop}
  {resolve : List KeyRotationEntry → KeyRotationValidator}

variable {registered : Arr 1952} {cycle : UInt64} {e f : KeyRotationEntry}

theorem activeKey_iff (h : Resolves validators accepts resolve) {id : RootID}
    (hreg : (validatorKeys validators).lookup id = some registered) {l : List KeyRotationEntry} {pk : Arr 1952} :
    ActiveKey (resolve l) id cycle pk ↔
      pk ∈ keysFrom cycle registered (offerAll (accepts registered) [] (l.filter fun r => r.submitter = id)) := by
  simp only [ActiveKey, getActivePublicKey, h.known, hreg, Option.map_some, Option.some.injEq, exists_eq_left',
    h.rotations l id registered hreg]

/-- The history is ascending. -/
theorem ascending_offerAll (h : Resolves validators accepts resolve) (registered : Arr 1952) (l : List KeyRotationEntry) :
    ∀ history, AscendingCycles history → AscendingCycles (offerAll (accepts registered) history l) := by
  induction l with
  | nil => intro history hasc; exact hasc
  | cons r l ih =>
    intro history hasc
    by_cases hok : accepts registered history r
    · rw [offerAll_cons_pos hok]
      exact ih _ (ascending_append hasc (h.newer _ _ _ hok))
    · rw [offerAll, List.foldl_cons, offer_neg hok]
      exact ih history hasc

/-- Some order of a set starts with the given rotations, and some ends with them. -/
theorem exists_orders {es : List KeyRotationEntry} (hnodup : es.Nodup) (hmem : ∀ r ∈ es, r ∈ S) :
    ∃ rest, Orders S (es ++ rest) ∧ Orders S (rest ++ es) := by
  classical
  refine ⟨S.toList.filter fun r => r ∉ es, ?_⟩
  have horder : Orders S (es ++ S.toList.filter fun r => r ∉ es) := by
    refine ⟨List.nodup_append'.2 ⟨hnodup, S.nodup_toList.filter _, fun r hr hr' => ?_⟩, fun r => ?_⟩
    · simp [hr] at hr'
    · by_cases hr : r ∈ es
      · simp [hr, hmem r hr]
      · simp [hr]
  have hperm : (es ++ S.toList.filter fun r => r ∉ es).Perm _ := List.perm_append_comm
  exact ⟨horder, hperm.nodup_iff.1 horder.1, fun r => hperm.mem_iff.symm.trans (horder.2 r)⟩

/-! ## Where the order makes no difference -/

/-- Nothing is read past a window that never closes. -/
theorem keysFrom_endless (h : e.expiryCycle.toNat = 2 ^ 64 - 1) (later : List KeyRotationEntry) (cycle : UInt64) (k : Arr 1952) :
    keysFrom cycle k (e :: later) = keysFrom cycle k [e] := by
  simp only [keysFrom]
  split
  · rfl
  · next hbegun =>
    have hstop : cycle ≤ e.expiryCycle := by
      rw [UInt64.le_iff_toNat_le, h]
      exact Nat.le_sub_one_of_lt cycle.toNat_lt
    have hopen : e.inOverlap cycle = true := by
      simp [KeyRotationEntry.inOverlap, UInt64.not_lt.1 hbegun, hstop]
    simp only [hopen, if_true]

theorem sameKeys_of_noConflict (h : Resolves validators accepts resolve) (hno : NoConflict validators accepts S) :
    SameKeys S resolve := by
  intro l l' hl hl' id cycle pk
  cases hreg : (validatorKeys validators).lookup id with
  | none => simp only [ActiveKey, getActivePublicKey, h.known, hreg, Option.map_none, reduceCtorEq, false_and, exists_false]
  | some registered =>
    rw [activeKey_iff h hreg, activeKey_iff h hreg]
    by_cases hopens : ∃ e ∈ S, e.submitter = id ∧ accepts registered [] e
    · -- every order looks like `e` alone
      obtain ⟨e, he, rfl, hok⟩ := hopens
      have hall : ∀ l, Orders S l →
          keysFrom cycle registered
            (offerAll (accepts registered) [] (l.filter fun r => r.submitter = e.submitter)) =
          keysFrom cycle registered [e] := by
        intro l hl
        refine observe_offerAll ?_ (hl.1.filter _) hok fun f hf hne => ?_
        · simpa using (hl.2 e).2 he
        · obtain ⟨hf, hsub⟩ : f ∈ l ∧ f.submitter = e.submitter := by simpa using hf
          obtain ⟨hsole, hendless⟩ := hno e he f ((hl.2 f).1 hf) hne hsub registered hreg hok
          exact ⟨hsole, fun hfollows later => keysFrom_endless (hendless hfollows) later cycle registered⟩
      rw [hall l hl, hall l' hl']
    · -- nothing is ever accepted
      have hnone : ∀ l, Orders S l →
          offerAll (accepts registered) [] (l.filter fun r => r.submitter = id) = [] := by
        intro l hl
        refine offerAll_of_none fun f hf hok => hopens ⟨f, ?_⟩
        obtain ⟨hf, hsub⟩ : f ∈ l ∧ f.submitter = id := by simpa using hf
        exact ⟨(hl.2 f).1 hf, hsub, hok⟩
      rw [hnone l hl, hnone l' hl']

/-! ## Where it does -/

/-- The rotation at the start of a history brings its key. -/
theorem mem_keysFrom_first {later : List KeyRotationEntry} (hasc : AscendingCycles (e :: later)) (k : Arr 1952) :
    e.newPublicKey ∈ keysFrom e.effectiveCycle k (e :: later) := by
  have hafter : keysFrom e.effectiveCycle e.newPublicKey later = [e.newPublicKey] := by
    have h := keysFrom_append_of_lt (List.pairwise_cons.1 hasc).1 e.newPublicKey []
    simpa [keysFrom] using h
  have hself : ¬ e.effectiveCycle < e.effectiveCycle := UInt64.lt_irrefl _
  rw [keysFrom, if_neg hself, hafter]
  split
  · simp
  · simp

/-- Once a rotation at the start has taken effect, some active key comes from it or from one after it. -/
theorem exists_rotated_key (h : e.effectiveCycle ≤ cycle) (k : Arr 1952) (later : List KeyRotationEntry) :
    ∃ r ∈ e :: later, r.newPublicKey ∈ keysFrom cycle k (e :: later) := by
  rw [keysFrom, if_neg (UInt64.not_lt.2 h)]
  split
  · exact ⟨e, List.mem_cons_self, by simp⟩
  · -- the keys after the window: there is at least one
    obtain ⟨pk, hpk⟩ := List.exists_mem_of_ne_nil _
      (List.isEmpty_eq_false_iff.1 (isEmpty_keysFrom cycle e.newPublicKey later))
    rcases mem_keysFrom hpk with rfl | ⟨r, hr, -, rfl⟩
    · exact ⟨e, List.mem_cons_self, hpk⟩
    · exact ⟨r, List.mem_cons_of_mem _ hr, hpk⟩

/-- The history of an order that starts with a rotation which is acceptable at first. -/
theorem offerAll_first (h : Resolves validators accepts resolve) (hok : accepts registered [] e) (rest : List KeyRotationEntry) :
    ∃ later,
      offerAll (accepts registered) [] ((e :: rest).filter fun r => r.submitter = e.submitter) = e :: later ∧
        AscendingCycles (e :: later) := by
  rw [List.filter_cons_of_pos (by simp), offerAll_cons_pos hok, List.nil_append]
  obtain ⟨later, hlater, -⟩ := offerAll_extends (accepts registered) (rest.filter fun r => r.submitter = e.submitter) [e]
  have hasc := ascending_offerAll h registered (rest.filter fun r => r.submitter = e.submitter) [e]
    (List.pairwise_singleton _ _)
  refine ⟨later, hlater, ?_⟩
  rwa [hlater] at hasc

/-- Two rotations that are both acceptable at first: the earlier one brings its key only if it comes first. -/
theorem not_accepts_later (h : Resolves validators accepts resolve) (hdistinct : DistinctKeys validators S)
    (hsame : SameKeys S resolve) (he : e ∈ S) (hf : f ∈ S) (hne : f ≠ e) (hsub : f.submitter = e.submitter)
    (hreg : (validatorKeys validators).lookup e.submitter = some registered) (hok : accepts registered [] e)
    (hle : e.effectiveCycle ≤ f.effectiveCycle) : ¬ accepts registered [] f := by
  intro hokf
  obtain ⟨rest, hfirst, -⟩ := exists_orders (List.nodup_singleton e) (by simpa using he)
  obtain ⟨rest', hfirst', -⟩ := exists_orders (List.nodup_singleton f) (by simpa using hf)
  obtain ⟨later, hhistory, hasc⟩ := offerAll_first h hok rest
  obtain ⟨later', hhistory', hasc'⟩ := offerAll_first h hokf rest'
  have hkey := hsame _ _ hfirst hfirst' e.submitter e.effectiveCycle e.newPublicKey
  rw [activeKey_iff h hreg, activeKey_iff h hreg, List.singleton_append, List.singleton_append, hhistory, ← hsub,
    hhistory'] at hkey
  rcases mem_keysFrom (hkey.1 (mem_keysFrom_first hasc registered)) with heq | ⟨r, hr, hle', heq⟩
  · exact (hdistinct e he registered hreg).1 heq
  · rcases List.mem_cons.1 hr with rfl | hr
    · exact (hdistinct e he registered hreg).2 r hf hne hsub heq
    · -- a rotation after `f` has not taken effect yet
      have hlt := (List.pairwise_cons.1 hasc').1 r hr
      exact absurd (UInt64.lt_of_lt_of_le hlt hle') (UInt64.not_lt.2 hle)

/-- An order that ends with the only rotation which is acceptable at first records nothing else. -/
theorem exists_order_last (he : e ∈ S) (hok : accepts registered [] e)
    (hsole : ∀ f ∈ S, f ≠ e → f.submitter = e.submitter → ¬ accepts registered [] f) : ∃ l, Orders S l ∧
      offerAll (accepts registered) [] (l.filter fun r => r.submitter = e.submitter) = [e] := by
  obtain ⟨rest, -, hends⟩ := exists_orders (List.nodup_singleton e) (by simpa using he)
  have hrefused : ∀ r ∈ rest.filter fun r => r.submitter = e.submitter, ¬ accepts registered [] r := by
    intro r hr
    obtain ⟨hmem, hsub⟩ : r ∈ rest ∧ r.submitter = e.submitter := by simpa using hr
    refine hsole r ((hends.2 r).1 (List.mem_append_left _ hmem)) (fun heq => ?_) hsub
    exact (List.nodup_append'.1 hends.1).2.2 hmem (List.mem_singleton.2 heq)
  refine ⟨rest ++ [e], hends, ?_⟩
  rw [List.filter_append, offerAll_append, offerAll_of_none hrefused, List.filter_cons_of_pos (by simp),
    offerAll_cons_pos hok]
  rfl

/-- An order that starts with it and with one that is acceptable after it records both. -/
theorem exists_order_pair (he : e ∈ S) (hf : f ∈ S) (hne : f ≠ e) (hsub : f.submitter = e.submitter)
    (hok : accepts registered [] e) (hfollows : accepts registered [e] f) : ∃ l later, Orders S l ∧
      offerAll (accepts registered) [] (l.filter fun r => r.submitter = e.submitter) = e :: f :: later ∧
        ∀ r ∈ f :: later, r ∈ S ∧ r ≠ e ∧ r.submitter = e.submitter := by
  have hpair : [e, f].Nodup := by simpa using hne.symm
  have hpairmem : ∀ r ∈ [e, f], r ∈ S := by simp [he, hf]
  obtain ⟨rest, hstarts, -⟩ := exists_orders hpair hpairmem
  obtain ⟨later, hhistory, hmem⟩ :=
    offerAll_extends (accepts registered) (rest.filter fun r => r.submitter = e.submitter) [e, f]
  refine ⟨[e, f] ++ rest, later, hstarts, ?_, fun r hr => ?_⟩
  · rw [List.cons_append, List.singleton_append, List.filter_cons_of_pos (by simp),
      List.filter_cons_of_pos (by simpa using hsub), offerAll_cons_pos hok, List.nil_append, offerAll_cons_pos hfollows]
    exact hhistory
  · rcases List.mem_cons.1 hr with rfl | hr
    · exact ⟨hf, hne, hsub⟩
    · obtain ⟨hr, hrsub⟩ : r ∈ rest ∧ r.submitter = e.submitter := by simpa using hmem r hr
      refine ⟨(hstarts.2 r).1 (List.mem_append_right _ hr), ?_, hrsub⟩
      rintro rfl
      exact (List.nodup_append'.1 hstarts.1).2.2 List.mem_cons_self hr

/-- There is a cycle after a window that closes, and not before another cycle. -/
theorem exists_cycle_after {stop : UInt64} (h : stop.toNat ≠ 2 ^ 64 - 1) (start : UInt64) :
    ∃ cycle, stop < cycle ∧ start ≤ cycle := by
  have hstop := stop.toNat_lt
  have hstart := start.toNat_lt
  have hbound : max (stop.toNat + 1) start.toNat < 2 ^ 64 := by omega
  refine ⟨UInt64.ofNat (max (stop.toNat + 1) start.toNat), ?_, ?_⟩
  · rw [UInt64.lt_iff_toNat_lt, UInt64.toNat_ofNat_of_lt' hbound]
    omega
  · rw [UInt64.le_iff_toNat_le, UInt64.toNat_ofNat_of_lt' hbound]
    omega

/-- A rotation that is acceptable after the first one is active, once that one is retired, only if it came second. -/
theorem endless_of_follows (h : Resolves validators accepts resolve) (hdistinct : DistinctKeys validators S)
    (hsame : SameKeys S resolve) (he : e ∈ S) (hf : f ∈ S) (hne : f ≠ e) (hsub : f.submitter = e.submitter)
    (hreg : (validatorKeys validators).lookup e.submitter = some registered) (hok : accepts registered [] e)
    (hsole : ∀ f ∈ S, f ≠ e → f.submitter = e.submitter → ¬ accepts registered [] f) (hfollows : accepts registered [e] f) :
    e.expiryCycle.toNat = 2 ^ 64 - 1 := by
  by_contra hexpiry
  obtain ⟨cycle, hover, hbegun⟩ := exists_cycle_after hexpiry f.effectiveCycle
  have hstarted : e.effectiveCycle ≤ cycle :=
    UInt64.le_of_lt (UInt64.lt_of_lt_of_le (h.newer _ _ _ hfollows e rfl) hbegun)
  obtain ⟨l, hl, honly⟩ := exists_order_last he hok hsole
  obtain ⟨l', later, hl', hboth, hlater⟩ := exists_order_pair he hf hne hsub hok hfollows
  -- with `f` recorded, a key other than that of `e` is active in the cycle
  obtain ⟨r, hr, hkey⟩ := exists_rotated_key hbegun e.newPublicKey later
  have hactive := hsame _ _ hl' hl e.submitter cycle r.newPublicKey
  rw [activeKey_iff h hreg, activeKey_iff h hreg, hboth, honly, keysFrom_over hstarted hover, keysFrom_over hstarted hover,
    keysFrom, List.mem_singleton] at hactive
  obtain ⟨hrmem, hrne, hrsub⟩ := hlater r hr
  exact (hdistinct e he registered hreg).2 r hrmem hrne hrsub (hactive.1 hkey)

/-- **When the order does not matter**, for any way to let rotations into the histories. -/
theorem sameKeys_iff_noConflict (h : Resolves validators accepts resolve) :
    (NoConflict validators accepts S → SameKeys S resolve) ∧
      (DistinctKeys validators S → (SameKeys S resolve ↔ NoConflict validators accepts S)) := by
  refine ⟨sameKeys_of_noConflict h, fun hdistinct => ⟨fun hsame => ?_, sameKeys_of_noConflict h⟩⟩
  intro e he f hf hne hsub registered hreg hok
  have hsole : ∀ f ∈ S, f ≠ e → f.submitter = e.submitter → ¬ accepts registered [] f := by
    intro f hf hne hsub hokf
    rcases UInt64.le_total e.effectiveCycle f.effectiveCycle with hle | hle
    · exact not_accepts_later h hdistinct hsame he hf hne hsub hreg hok hle hokf
    · exact not_accepts_later h hdistinct hsame hf he hne.symm hsub.symm (hsub ▸ hreg) hokf hle hok
  exact ⟨hsole f hf hne hsub, endless_of_follows h hdistinct hsame he hf hne hsub hreg hok hsole⟩

end Resolves

/-! ## Nodes and clients -/

/-- The rules let the rotation in. -/
def LetsIn (accepts : Arr 1952 → List KeyRotationEntry → KeyRotationEntry → Prop) (v : KeyRotationValidator)
    (r : KeyRotationEntry) : Prop :=
  ∃ registered, v.validators.lookup r.submitter = some registered ∧ accepts registered (v.rotations r.submitter) r

/-- A loop that appends the rotations which the rules let in resolves keys by these rules. -/
theorem resolves_foldl {validators : List ValidatorInfo}
    {accepts : Arr 1952 → List KeyRotationEntry → KeyRotationEntry → Prop} {v₀ : KeyRotationValidator}
    {step : KeyRotationValidator → KeyRotationEntry → KeyRotationValidator}
    (hvalidators : v₀.validators = validatorKeys validators) (hempty : ∀ id, v₀.rotations id = [])
    (hnewer : ∀ registered history r, accepts registered history r → Newer history r)
    (hstep : ∀ v r, v = { v₀ with rotations := v.rotations } → (∀ id, AscendingCycles (v.rotations id)) →
      (LetsIn accepts v r ∧ step v r = v.append r) ∨ (¬ LetsIn accepts v r ∧ step v r = v)) :
    Resolves validators accepts fun l => l.foldl step v₀ := by
  let Inv : KeyRotationValidator → Prop := fun v =>
    v = { v₀ with rotations := v.rotations } ∧ ∀ id, AscendingCycles (v.rotations id)
  have hstart : Inv v₀ := ⟨rfl, fun id => by rw [hempty]; exact List.Pairwise.nil⟩
  have hinv : ∀ v r, Inv v → Inv (step v r) := by
    rintro v r ⟨hv, hasc⟩
    rcases hstep v r hv hasc with ⟨⟨registered, -, hok⟩, h⟩ | ⟨-, h⟩
    · rw [h]
      exact ⟨by rw [hv]; rfl, ascending_append_rotations hasc (hnewer _ _ _ hok)⟩
    · rw [h]
      exact ⟨hv, hasc⟩
  refine ⟨hnewer, fun l => ?_, fun l id registered hreg => ?_⟩
  · have hall : Inv (l.foldl step v₀) := List.foldlRecOn l step hstart fun v hv r _ => hinv v r hv
    rw [hall.1]
    exact hvalidators
  · -- for a known validator the rules are those for its registered key
    have hok : ∀ history r, (∃ registered, v₀.validators.lookup id = some registered ∧ accepts registered history r) ↔
        accepts registered history r := by
      intro history r
      rw [hvalidators, hreg]
      simp
    have hjournal := journal_foldl KeyRotationValidator.rotations KeyRotationEntry.submitter
      (fun id history r => ∃ registered, v₀.validators.lookup id = some registered ∧ accepts registered history r)
      hinv ?_ id l v₀ hstart
    · simp only [hok, hempty] at hjournal
      exact hjournal
    · intro v r id ⟨hv, hasc⟩
      have hknown : v.validators = v₀.validators := by rw [hv]
      by_cases hid : r.submitter = id
      · subst hid
        rw [if_pos rfl]
        rcases hstep v r hv hasc with ⟨hlets, h⟩ | ⟨hnot, h⟩
        · rw [h, append_rotations, if_pos rfl, offer_pos (hknown ▸ hlets)]
        · rw [h, offer_neg (hknown ▸ hnot)]
      · rw [if_neg hid]
        rcases hstep v r hv hasc with ⟨-, h⟩ | ⟨-, h⟩
        · rw [h, append_rotations, if_neg (Ne.symm hid)]
        · rw [h]

/-- `ValidateAndRecord` lets a rotation in by its rules. -/
theorem resolves_offered (validators : List ValidatorInfo) (current : UInt64) (cfg : Config) :
    Resolves validators (Rules X current cfg) (offered X validators current cfg) := by
  refine resolves_foldl rfl (fun _ => rfl) (fun _ _ _ h => h.newer) fun v r hv hasc => ?_
  have hcurrent : v.currentCycle = current ∧ v.cfg = cfg := by rw [hv]; exact ⟨rfl, rfl⟩
  have hiff : ∀ v', v.validateAndRecord X r = .ok v' ↔ LetsIn (Rules X current cfg) v r ∧ v' = v.append r := by
    intro v'
    rw [validateAndRecord_ok_iff X (hasc _), hcurrent.1, hcurrent.2]
    simp only [LetsIn, ← and_assoc, exists_and_right]
  by_cases hlets : LetsIn (Rules X current cfg) v r
  · exact .inl ⟨hlets, step_ok X ((hiff _).2 ⟨hlets, rfl⟩)⟩
  · exact .inr ⟨hlets, step_refused X fun v' hok => hlets ((hiff v').1 hok).1⟩

/-- A light client lets a rotation in by its own. -/
theorem resolves_listed (anchor : TrustAnchor) : Resolves anchor.validators (Admissible X) (listed X anchor) := by
  have hfold : listed X anchor = fun l => l.foldl (fun v r => resolveRotation X v (some r))
      (new anchor.validators anchor.blockIndex rotationConfig) := by
    funext l
    rw [listed, newKeyResolver, List.foldl_map]
  rw [hfold]
  refine resolves_foldl rfl (fun _ => rfl) (fun _ _ _ h => h.newer) fun v r _ hasc => ?_
  have hiff : ∀ v', admitRotation X v r = .ok v' ↔ LetsIn (Admissible X) v r ∧ v' = v.append r := by
    intro v'
    rw [admitRotation_ok_iff X (hasc _)]
    simp only [LetsIn, ← and_assoc, exists_and_right]
  by_cases hlets : LetsIn (Admissible X) v r
  · refine .inl ⟨hlets, ?_⟩
    simp only [resolveRotation, (hiff _).2 ⟨hlets, rfl⟩]
  · refine .inr ⟨hlets, ?_⟩
    cases h : admitRotation X v r with
    | error err => simp only [resolveRotation, h]
    | ok v' => exact absurd ((hiff v').1 h).1 hlets

/-- **When the order of arrival does not matter**: with a node, and with a light client, the rotations of a set lead to the
same active keys in all orders if they do not conflict, and, provided that they bring distinct keys, only if they do not. -/
theorem sameKeys_iff (validators : List ValidatorInfo) (current : UInt64) (cfg : Config) (anchor : TrustAnchor)
    (S : Finset KeyRotationEntry) :
    ((NoConflict validators (Rules X current cfg) S → SameKeys S (offered X validators current cfg)) ∧
      (DistinctKeys validators S →
        (SameKeys S (offered X validators current cfg) ↔ NoConflict validators (Rules X current cfg) S))) ∧
      (NoConflict anchor.validators (Admissible X) S → SameKeys S (listed X anchor)) ∧
      (DistinctKeys anchor.validators S →
        (SameKeys S (listed X anchor) ↔ NoConflict anchor.validators (Admissible X) S)) :=
  ⟨sameKeys_iff_noConflict (resolves_offered X validators current cfg), sameKeys_iff_noConflict (resolves_listed X anchor)⟩

namespace Sample

open Gleipnir.Sample

/-- Two rotations that the registered key has signed. -/
def early : KeyRotationEntry := rotationTo 1 1 5 10 20

def late : KeyRotationEntry := rotationTo 1 1 6 15 25

theorem orders_pair : Orders {early, late} [early, late] ∧ Orders {early, late} [late, early] := by
  have hne : early ≠ late := fun heq => absurd (congrArg (·.effectiveCycle) heq) (by decide)
  refine ⟨⟨by simpa using hne, fun r => by simp⟩, ⟨by simpa using hne.symm, fun r => by simp [or_comm]⟩⟩

theorem not_sameKeys {resolve : List KeyRotationEntry → KeyRotationValidator}
    (hfirst : (resolve [early, late]).getActivePublicKey (Arr.copy 16 [1]) 12 = some [Arr.copy 1952 [1], Arr.copy 1952 [5]])
    (hsecond : (resolve [late, early]).getActivePublicKey (Arr.copy 16 [1]) 12 = some [Arr.copy 1952 [1]]) :
    ¬ SameKeys {early, late} resolve := by
  intro hsame
  have hkey := hsame _ _ orders_pair.1 orders_pair.2 (Arr.copy 16 [1]) 12 (Arr.copy 1952 [5])
  obtain ⟨keys, hkeys, hmem⟩ := hkey.1 ⟨_, hfirst, by simp⟩
  obtain rfl := Option.some.inj (hsecond.symm.trans hkeys)
  have hhead := congrArg (fun pk : Arr 1952 => pk.toList.headD 0) (List.mem_singleton.1 hmem)
  exact absurd hhead (by decide)

/-- The keys of the cycle 12, for the engine and for the light client, in either order. -/
def keysInOrder : Computed ([info 1], defaultConfig) fun x =>
    ((offered prims x.1 0 x.2 [early, late]).getActivePublicKey (Arr.copy 16 [1]) 12 =
        some [Arr.copy 1952 [1], Arr.copy 1952 [5]] ∧
      (offered prims x.1 0 x.2 [late, early]).getActivePublicKey (Arr.copy 16 [1]) 12 = some [Arr.copy 1952 [1]]) ∧
    (listed prims ⟨0, none, x.1, []⟩ [early, late]).getActivePublicKey (Arr.copy 16 [1]) 12 =
        some [Arr.copy 1952 [1], Arr.copy 1952 [5]] ∧
      (listed prims ⟨0, none, x.1, []⟩ [late, early]).getActivePublicKey (Arr.copy 16 [1]) 12 = some [Arr.copy 1952 [1]] :=
  computed _ (by decide +kernel)

theorem distinctKeys_pair {validators : List ValidatorInfo} {r s : KeyRotationEntry} {kr ks : Arr 1952}
    (hr : (validatorKeys validators).lookup r.submitter = some kr) (hs : (validatorKeys validators).lookup s.submitter = some ks)
    (hkr : r.newPublicKey ≠ kr) (hks : s.newPublicKey ≠ ks) (hne : r.newPublicKey ≠ s.newPublicKey) :
    DistinctKeys validators {r, s} := by
  intro e he registered hreg
  rcases Finset.mem_insert.1 he with rfl | he
  · obtain rfl := Option.some.inj (hr.symm.trans hreg)
    refine ⟨hkr, fun f hf hfe _ => ?_⟩
    obtain rfl := Finset.mem_singleton.1 ((Finset.mem_insert.1 hf).resolve_left hfe)
    exact hne.symm
  · obtain rfl := Finset.mem_singleton.1 he
    obtain rfl := Option.some.inj (hs.symm.trans hreg)
    refine ⟨hks, fun f hf hfe _ => ?_⟩
    obtain rfl := (Finset.mem_insert.1 hf).resolve_right fun hf => hfe (Finset.mem_singleton.1 hf)
    exact hne

/-- A rotation of another validator. -/
def aside : KeyRotationEntry := rotationTo 2 2 6 15 25

/-- The registered keys of the submitters, and that the new ones are others. -/
def pairKeys : Computed [early, late, aside] fun x =>
    x.map (fun r => (validatorKeys [info 1, info 2]).lookup r.submitter) =
      [some (Arr.copy 1952 [1]), some (Arr.copy 1952 [1]), some (Arr.copy 1952 [2])] ∧
    (validatorKeys [info 1]).lookup early.submitter = some (Arr.copy 1952 [1]) ∧
    early.newPublicKey ≠ Arr.copy 1952 [1] ∧ late.newPublicKey ≠ Arr.copy 1952 [1] ∧
    aside.newPublicKey ≠ Arr.copy 1952 [2] ∧ early.newPublicKey ≠ late.newPublicKey ∧
    early.newPublicKey ≠ aside.newPublicKey :=
  computed _ (by decide +kernel)

/-- Rotations of two validators do not conflict; the two of the first validator do. All of them bring distinct keys. -/
theorem keys_of_pairs : (DistinctKeys [info 1, info 2] {early, aside} ∧
      SameKeys {early, aside} (offered prims [info 1, info 2] 0 defaultConfig) ∧
      SameKeys {early, aside} (listed prims ⟨0, none, [info 1, info 2], []⟩)) ∧
    DistinctKeys [info 1] {early, late} ∧ ¬ NoConflict [info 1] (Rules prims 0 defaultConfig) {early, late} := by
  obtain ⟨_, rfl, hlookup, hown, hnewEarly, hnewLate, hnewAside, hpair, haside⟩ := pairKeys
  obtain ⟨_, rfl, ⟨hearly, hlate⟩, -⟩ := keysInOrder
  simp only [List.map_cons, List.cons.injEq] at hlookup
  have hdistinct := distinctKeys_pair hlookup.1 hlookup.2.2.1 hnewEarly hnewAside haside
  have hdistinct' : DistinctKeys [info 1] {early, late} := distinctKeys_pair hown hown hnewEarly hnewLate hpair
  have hsubmitters : aside.submitter ≠ early.submitter := by decide
  have hfree : ∀ accepts, NoConflict [info 1, info 2] accepts {early, aside} := by
    intro accepts e he f hf hfe hsame
    rcases Finset.mem_insert.1 he with rfl | he
    · obtain rfl := Finset.mem_singleton.1 ((Finset.mem_insert.1 hf).resolve_left hfe)
      exact absurd hsame hsubmitters
    · obtain rfl := Finset.mem_singleton.1 he
      obtain rfl := (Finset.mem_insert.1 hf).resolve_right fun hf => hfe (Finset.mem_singleton.1 hf)
      exact absurd hsame.symm hsubmitters
  obtain ⟨⟨-, hnode⟩, -, hclient⟩ :=
    sameKeys_iff prims [info 1, info 2] 0 defaultConfig ⟨0, none, [info 1, info 2], []⟩ {early, aside}
  obtain ⟨⟨-, hnode'⟩, -⟩ := sameKeys_iff prims [info 1] 0 defaultConfig ⟨0, none, [info 1], []⟩ {early, late}
  exact ⟨⟨hdistinct, (hnode hdistinct).2 (hfree _), (hclient hdistinct).2 (hfree _)⟩, hdistinct',
    fun hno => not_sameKeys hearly hlate ((hnode' hdistinct').2 hno)⟩

/-- The earlier rotation is refused when it arrives after the later one, and its key is never active. -/
theorem order_matters : ¬ SameKeys {early, late} (offered prims [info 1] 0 defaultConfig) ∧
    ¬ SameKeys {early, late} (listed prims ⟨0, none, [info 1], []⟩) := by
  obtain ⟨_, rfl, ⟨hearly, hlate⟩, hearly', hlate'⟩ := keysInOrder
  exact ⟨not_sameKeys hearly hlate, not_sameKeys hearly' hlate'⟩

end Sample

end Gleipnir.LightClient
