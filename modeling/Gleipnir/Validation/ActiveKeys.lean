import Gleipnir.Validation.KeyHistory
import Gleipnir.Sample
import Mathlib.Data.List.TakeWhile

/-!
# The keys that are active in a cycle

`KeyLaw` is what the overlap windows of a history promise. `GetActivePublicKey` stops at the first open window, so it keeps
the promise only where no open window hides a later rotation: `keyLaw_iff` says exactly where (`Unobstructed`). Histories
whose windows are separate meet it in every cycle (`unobstructed_of_separate`).

`chain_of_authority` is what all histories have: each key comes from the registered one through rotations that the key
before signed.
-/

namespace Gleipnir

open KeyRotationValidator

variable (X : Prims)

/-! ## The law of active keys -/

/-- The active keys in a cycle: the registered one before the first rotation, every incoming key in its overlap window, and
only the newest key once its window has closed. -/
structure KeyLaw (registered : Arr 1952) (history : List KeyRotationEntry) (cycle : UInt64) (keys : List (Arr 1952)) :
    Prop where
  before : (∀ r ∈ history, cycle < r.effectiveCycle) → ∀ k, k ∈ keys ↔ k = registered
  within : ∀ r ∈ history, r.effectiveCycle ≤ cycle → cycle ≤ r.expiryCycle → r.newPublicKey ∈ keys
  after : ∀ r ∈ history, (∀ r' ∈ history, r'.effectiveCycle ≤ r.effectiveCycle) → r.expiryCycle < cycle →
    ∀ k, k ∈ keys ↔ k = r.newPublicKey

/-- The rotations from the start of a history whose windows have closed. -/
def closedRotations (cycle : UInt64) (history : List KeyRotationEntry) : List KeyRotationEntry :=
  history.takeWhile fun r => r.effectiveCycle ≤ cycle && r.expiryCycle < cycle

/-- The key they leave. -/
def baseKey (registered : Arr 1952) (history : List KeyRotationEntry) (cycle : UInt64) : Arr 1952 :=
  ((closedRotations cycle history).getLast?.map (·.newPublicKey)).getD registered

/-- The first rotation whose window is open. -/
def firstOpen (history : List KeyRotationEntry) (cycle : UInt64) : Option KeyRotationEntry :=
  history.find? (·.inOverlap cycle)

/-- No open window hides a rotation: the open ones bring the keys of the first of them, and none is open once the window of
the newest rotation has closed, unless they bring the newest key themselves. -/
structure Unobstructed (registered : Arr 1952) (history : List KeyRotationEntry) (cycle : UInt64) : Prop where
  windows : ∀ f, firstOpen history cycle = some f → ∀ r ∈ history, r.inOverlap cycle = true →
    r.newPublicKey = f.newPublicKey ∨ r.newPublicKey = baseKey registered history cycle
  newest : ∀ last, history.getLast? = some last → last.expiryCycle < cycle →
    baseKey registered history cycle = last.newPublicKey ∧
      ∀ f, firstOpen history cycle = some f → f.newPublicKey = last.newPublicKey

variable {history : List KeyRotationEntry} {registered k : Arr 1952} {cycle : UInt64} {r : KeyRotationEntry} {id : RootID}
  {v : KeyRotationValidator}

/-- The loop in closed form. -/
theorem keysFrom_eq (hasc : AscendingCycles history) (registered : Arr 1952) (cycle : UInt64) :
    keysFrom cycle registered history =
      baseKey registered history cycle :: ((firstOpen history cycle).map (·.newPublicKey)).toList := by
  have hdone : ∀ r : KeyRotationEntry, decide (r.window.DoneAt cycle.toNat) =
      (r.effectiveCycle ≤ cycle && r.expiryCycle < cycle : Bool) := by
    intro r
    rw [Bool.eq_iff_iff, Bool.and_eq_true, decide_eq_true_iff, decide_eq_true_iff, decide_eq_true_iff,
      UInt64.le_iff_toNat_le, UInt64.lt_iff_toNat_lt]
    rfl
  have hopen : ∀ r : KeyRotationEntry, decide (r.window.OpenAt cycle.toNat) = r.inOverlap cycle := by
    intro r
    rw [Bool.eq_iff_iff, decide_eq_true_iff, inOverlap_iff]
  rw [keysFrom_eq_keysAt, Handover.keysAt_eq (ascending_window hasc), Handover.lastKey_eq, List.takeWhile_map, List.find?_map]
  simp only [Function.comp_def, hdone, hopen, List.getLast?_map, Option.map_map, baseKey, closedRotations, firstOpen]
  rfl

theorem mem_keysFrom_iff (hasc : AscendingCycles history) : k ∈ keysFrom cycle registered history ↔
      k = baseKey registered history cycle ∨ ∃ f, firstOpen history cycle = some f ∧ k = f.newPublicKey := by
  rw [keysFrom_eq hasc, List.mem_cons, Option.mem_toList, Option.map_eq_some_iff]
  simp only [eq_comm]

/-- The key `k` has not been retired in the cycle: the rotations whose windows have closed leave it, the registered key if
there are none, or the open rotation brings it. -/
def Unretired (registered k : Arr 1952) (history : List KeyRotationEntry) (cycle : UInt64) : Prop :=
  baseKey registered history cycle = k ∨ ∃ r ∈ firstOpen history cycle, r.newPublicKey = k

theorem unretired_iff (hasc : AscendingCycles history) :
    Unretired registered k history cycle ↔ k ∈ keysFrom cycle registered history := by
  rw [mem_keysFrom_iff hasc, Unretired]
  simp only [Option.mem_def, eq_comm]

/-- Before the first window closes the registered key is not retired. -/
theorem unretired_of_none_closed (h : closedRotations cycle history = []) (registered : Arr 1952) :
    Unretired registered registered history cycle := by
  left
  rw [baseKey, h]
  rfl

/-- The rotation with the greatest effective cycle is the last one. -/
theorem greatest_iff_last (hasc : AscendingCycles history) :
    (r ∈ history ∧ ∀ r' ∈ history, r'.effectiveCycle ≤ r.effectiveCycle) ↔ history.getLast? = some r := by
  rcases List.eq_nil_or_concat history with rfl | ⟨before, last, rfl⟩
  · simp
  · rw [List.concat_eq_append] at hasc ⊢
    have hbefore := (List.pairwise_append.1 hasc).2.2
    rw [List.getLast?_append_of_ne_nil _ (List.cons_ne_nil _ _), List.getLast?_singleton, Option.some.injEq]
    constructor
    · rintro ⟨hr, hmax⟩
      rcases List.mem_append.1 hr with hr | hr
      · -- an earlier rotation is not the greatest
        have hlt := hbefore r hr last (List.mem_singleton.2 rfl)
        exact absurd (hmax last (by simp)) (UInt64.not_le.2 hlt)
      · exact (List.mem_singleton.1 hr).symm
    · rintro rfl
      refine ⟨by simp, fun r' hr' => ?_⟩
      rcases List.mem_append.1 hr' with hr' | hr'
      · exact UInt64.le_of_lt (hbefore r' hr' last (List.mem_singleton.2 rfl))
      · rw [List.mem_singleton.1 hr']
        exact UInt64.le_refl _

/-- Before the first rotation nothing has closed and nothing is open. -/
theorem baseKey_of_before (h : ∀ r ∈ history, cycle < r.effectiveCycle) (registered : Arr 1952) :
    baseKey registered history cycle = registered ∧ firstOpen history cycle = none := by
  constructor
  · cases history with
    | nil => rfl
    | cons r rs =>
      have hlt := UInt64.not_le.2 (h r List.mem_cons_self)
      simp [baseKey, closedRotations, hlt]
  · rw [firstOpen, List.find?_eq_none]
    intro r hr hopen
    have hle := (inOverlap_iff.1 hopen).1
    exact absurd (UInt64.lt_iff_toNat_lt.1 (h r hr)) (not_lt.2 hle)

/-- The keys of a history keep the law where no window hides a rotation, and only there. -/
theorem keyLaw_keysFrom_iff (hasc : AscendingCycles history) (registered : Arr 1952) (cycle : UInt64) :
    KeyLaw registered history cycle (keysFrom cycle registered history) ↔ Unobstructed registered history cycle := by
  constructor
  · intro hlaw
    refine ⟨fun f hf r hr hopen => ?_, fun last hlast hclosed => ?_⟩
    · have hbounds := inOverlap_iff.1 hopen
      have hmem := hlaw.within r hr (UInt64.le_iff_toNat_le.2 hbounds.1) (UInt64.le_iff_toNat_le.2 hbounds.2)
      rcases (mem_keysFrom_iff hasc).1 hmem with hbase | ⟨f', hf', hkey⟩
      · exact .inr hbase
      · obtain rfl := Option.some.inj (hf.symm.trans hf')
        exact .inl hkey
    · obtain ⟨hmem, hmax⟩ := (greatest_iff_last hasc).2 hlast
      have honly := hlaw.after last hmem hmax hclosed
      refine ⟨(honly _).1 ((mem_keysFrom_iff hasc).2 (.inl rfl)), fun f hf => ?_⟩
      exact (honly _).1 ((mem_keysFrom_iff hasc).2 (.inr ⟨f, hf, rfl⟩))
  · intro hclear
    refine ⟨fun hbefore k => ?_, fun r hr hstart hstop => ?_, fun r hr hmax hclosed k => ?_⟩
    · obtain ⟨hbase, hnone⟩ := baseKey_of_before hbefore registered
      rw [mem_keysFrom_iff hasc, hbase, hnone]
      simp
    · have hopen : r.inOverlap cycle = true :=
        inOverlap_iff.2 ⟨UInt64.le_iff_toNat_le.1 hstart, UInt64.le_iff_toNat_le.1 hstop⟩
      cases hf : firstOpen history cycle with
      | none => exact absurd hopen (List.find?_eq_none.1 hf r hr)
      | some f =>
        rw [mem_keysFrom_iff hasc]
        rcases hclear.windows f hf r hr hopen with hkey | hkey
        · exact .inr ⟨f, hf, hkey⟩
        · exact .inl hkey
    · obtain ⟨hbase, hall⟩ := hclear.newest r ((greatest_iff_last hasc).1 ⟨hr, hmax⟩) hclosed
      rw [mem_keysFrom_iff hasc, hbase]
      constructor
      · rintro (hk | ⟨f, hf, hk⟩)
        · exact hk
        · rw [hk, hall f hf]
      · exact .inl

/-- Each rotation's window opens before it closes, and closes before the next one opens. -/
def SeparateWindows (history : List KeyRotationEntry) : Prop :=
  (∀ r ∈ history, r.effectiveCycle ≤ r.expiryCycle) ∧ history.Pairwise fun r r' => r.expiryCycle < r'.effectiveCycle

theorem ascending_of_separate (h : SeparateWindows history) : AscendingCycles history :=
  h.2.imp_of_mem fun hr _ hlt => UInt64.lt_of_le_of_lt (h.1 _ hr) hlt

/-- At most one of separate windows is open. -/
theorem open_unique (h : SeparateWindows history) {r' : KeyRotationEntry} (hr : r ∈ history) (hr' : r' ∈ history)
    (hopen : r.inOverlap cycle = true) (hopen' : r'.inOverlap cycle = true) : r = r' := by
  obtain ⟨hstart, hstop⟩ := inOverlap_iff.1 hopen
  obtain ⟨hstart', hstop'⟩ := inOverlap_iff.1 hopen'
  simp only [KeyRotationEntry.window] at hstart hstop hstart' hstop'
  by_contra hne
  have hsymm : Std.Symm fun r r' : KeyRotationEntry =>
      r.expiryCycle < r'.effectiveCycle ∨ r'.expiryCycle < r.effectiveCycle := ⟨fun _ _ => Or.symm⟩
  -- the windows are ordered one way or the other
  have hordered := (h.2.imp fun hlt => Or.inl hlt : history.Pairwise fun r r' =>
    r.expiryCycle < r'.effectiveCycle ∨ r'.expiryCycle < r.effectiveCycle).forall hr hr' hne
  rcases hordered with hlt | hlt
  · have := UInt64.lt_iff_toNat_lt.1 hlt
    omega
  · have := UInt64.lt_iff_toNat_lt.1 hlt
    omega

/-- **Separate windows** hide nothing. -/
theorem unobstructed_of_separate (h : SeparateWindows history) (registered : Arr 1952) (cycle : UInt64) :
    Unobstructed registered history cycle := by
  refine ⟨fun f hf r hr hopen => ?_, fun last hlast hclosed => ?_⟩
  · left
    rw [open_unique h hr (List.mem_of_find?_eq_some hf) hopen (by simpa using List.find?_some hf)]
  · obtain ⟨hlastmem, hmax⟩ := (greatest_iff_last (ascending_of_separate h)).2 hlast
    -- every window closes by the time the last one does
    have hall : ∀ r ∈ history, r.effectiveCycle ≤ cycle ∧ r.expiryCycle < cycle := by
      intro r hr
      have hlast' : last.effectiveCycle ≤ last.expiryCycle := h.1 last hlastmem
      refine ⟨UInt64.le_of_lt (UInt64.lt_of_le_of_lt (UInt64.le_trans (hmax r hr) hlast') hclosed), ?_⟩
      obtain ⟨before, rfl⟩ := List.getLast?_eq_some_iff.1 hlast
      rcases List.mem_append.1 hr with hr | hr
      · have hlt := (List.pairwise_append.1 h.2).2.2 r hr last (List.mem_singleton.2 rfl)
        exact UInt64.lt_trans (UInt64.lt_of_lt_of_le hlt hlast') hclosed
      · rwa [List.mem_singleton.1 hr]
    have hclosedAll : closedRotations cycle history = history := by
      rw [closedRotations, List.takeWhile_eq_self_iff]
      intro r hr
      simp [hall r hr]
    refine ⟨by simp [baseKey, hclosedAll, hlast], fun f hf => ?_⟩
    have hopen := (inOverlap_iff.1 (by simpa using List.find?_some hf)).2
    have hlt := UInt64.lt_iff_toNat_lt.1 (hall f (List.mem_of_find?_eq_some hf)).2
    exact absurd hlt (not_lt.2 hopen)

/-- The validators of a sequence of calls that started with a new validator. -/
theorem activeKeys_run {validators : List ValidatorInfo} {current : UInt64} {cfg : Config} {cmds : List Command}
    (hreg : (validatorKeys validators).lookup id = some registered) (cycle : UInt64) :
    (run X cmds (new validators current cfg)).getActivePublicKey id cycle =
      some (keysFrom cycle registered ((run X cmds (new validators current cfg)).rotations id)) := by
  rw [getActivePublicKey, validators_run]
  exact congrArg (Option.map _) hreg

/-- **Where the law of active keys holds**: in every history that calls have built, for every validator and cycle, exactly
where no open window hides a rotation. -/
theorem keyLaw_iff (validators : List ValidatorInfo) (current : UInt64) (cfg : Config) (cmds : List Command) {id : RootID}
    {registered : Arr 1952} (hreg : (validatorKeys validators).lookup id = some registered) (cycle : UInt64) :
    ∃ keys, (run X cmds (new validators current cfg)).getActivePublicKey id cycle = some keys ∧
      (KeyLaw registered ((run X cmds (new validators current cfg)).rotations id) cycle keys ↔
        Unobstructed registered ((run X cmds (new validators current cfg)).rotations id) cycle) := by
  refine ⟨_, activeKeys_run X hreg cycle, ?_⟩
  have hsound := sound_run X cmds (sound_new X validators current cfg)
  exact keyLaw_keysFrom_iff (hsound.ascending id) registered cycle

/-! ## Authority -/

/-- A key that the registered one has handed on: each rotation on the way is in the history, and carries the signatures of
the key before it and of its own. -/
inductive Descends (registered : Arr 1952) (history : List KeyRotationEntry) : Arr 1952 → Prop where
  | registered : Descends registered history registered
  | rotated (r : KeyRotationEntry) (pk : Arr 1952) (payload : Bytes) : r ∈ history →
      Descends registered history pk → r.payloadBytes X = some payload →
      verifyDilithium X pk payload r.signatureOld = true →
      verifyDilithium X r.newPublicKey payload r.signatureNew = true → Descends registered history r.newPublicKey

/-- The incoming keys of a sound history descend from the registered one. -/
theorem descends_newPublicKey (hs : Sound X v) (hreg : v.validators.lookup id = some registered)
    (before : List KeyRotationEntry) :
    ∀ after, v.rotations id = before ++ after → ∀ r ∈ before, Descends X registered (v.rotations id) r.newPublicKey := by
  -- from the oldest rotation to the newest: the key that signs comes from a rotation before
  induction before using List.reverseRecOn with
  | nil => intro after _ r hr; cases hr
  | append_singleton before last ih =>
    intro after hsplit r hr
    rw [List.append_assoc, List.singleton_append] at hsplit
    have hbefore := ih _ hsplit
    rcases List.mem_append.1 hr with hr | hr
    · exact hbefore r hr
    · obtain rfl := List.mem_singleton.1 hr
      obtain ⟨registered', hreg', payload, hpayload, ⟨pk, hpk, hold⟩, hnew⟩ := hs.authorised id before r after hsplit
      obtain rfl := Option.some.inj (hreg.symm.trans hreg')
      refine .rotated r pk payload (by simp [hsplit]) ?_ hpayload hold hnew
      rcases mem_keysFrom hpk with rfl | ⟨r', hr', -, rfl⟩
      · exact .registered
      · exact hbefore r' hr'

/-- Every active key descends from the registered one. -/
theorem descends_active (hs : Sound X v) {keys : List (Arr 1952)} (hkeys : v.getActivePublicKey id cycle = some keys) :
    ∃ registered, v.validators.lookup id = some registered ∧ ∀ k ∈ keys, Descends X registered (v.rotations id) k := by
  obtain ⟨registered, hreg, rfl⟩ := Option.map_eq_some_iff.1 hkeys
  refine ⟨registered, hreg, fun k hk => ?_⟩
  rcases mem_keysFrom hk with rfl | ⟨r, hr, -, rfl⟩
  · exact .registered
  · exact descends_newPublicKey X hs hreg _ [] (List.append_nil _).symm r hr

/-- A recorded rotation is signed by its own key, and by a key that the whole history has active right before it. -/
theorem signed_of_mem (hs : Sound X v) (hr : r ∈ v.rotations id) :
    ∃ keys, v.getActivePublicKey id (authorisingCycle r) = some keys ∧ Signed X keys r := by
  obtain ⟨before, after, hsplit⟩ := List.append_of_mem hr
  obtain ⟨registered, hreg, payload, hpayload, ⟨pk, hpk, hold⟩, hnew⟩ := hs.authorised id before r after hsplit
  have hactive : v.getActivePublicKey id (authorisingCycle r) =
      some (keysFrom (authorisingCycle r) registered (v.rotations id)) := by
    rw [getActivePublicKey, hreg, Option.map_some]
  refine ⟨_, hactive, payload, hpayload, ⟨pk, ?_, hold⟩, hnew⟩
  rw [hsplit]
  exact keysFrom_before_subset (hsplit ▸ hs.ascending id) hpk

/-- **The chain of authority**: after any sequence of calls every history is ascending, each rotation in it is signed by
its own key and by one that the history has active in the last cycle before it, all active keys descend from the registered
one, and a refused entry changes no history. -/
theorem chain_of_authority (validators : List ValidatorInfo) (current : UInt64) (cfg : Config) (cmds : List Command)
    (id : RootID) :
    AscendingCycles ((run X cmds (new validators current cfg)).rotations id) ∧
      (∀ r ∈ (run X cmds (new validators current cfg)).rotations id, ∃ keys,
        (authorisingCycle r).toNat = r.effectiveCycle.toNat - 1 ∧
        (run X cmds (new validators current cfg)).getActivePublicKey id (authorisingCycle r) = some keys ∧
        Signed X keys r) ∧
      (∀ cycle keys, (run X cmds (new validators current cfg)).getActivePublicKey id cycle = some keys →
        ∃ registered, (validatorKeys validators).lookup id = some registered ∧
          ∀ k ∈ keys, Descends X registered ((run X cmds (new validators current cfg)).rotations id) k) ∧
      ∀ r err, (run X cmds (new validators current cfg)).validateAndRecord X r = .error err →
        (run X (cmds ++ [.validateAndRecord r]) (new validators current cfg)).rotations id =
          (run X cmds (new validators current cfg)).rotations id := by
  have hsound := sound_run X cmds (sound_new X validators current cfg)
  have hvalidators := validators_run X cmds (new validators current cfg)
  refine ⟨hsound.ascending id, fun r hr => ?_, fun cycle keys hkeys => ?_, fun r err herr => ?_⟩
  · obtain ⟨keys, hkeys, hsigned⟩ := signed_of_mem X hsound hr
    exact ⟨keys, authorisingCycle_toNat r, hkeys, hsigned⟩
  · obtain ⟨registered, hreg, hall⟩ := descends_active X hsound hkeys
    rw [hvalidators] at hreg
    exact ⟨registered, hreg, hall⟩
  · rw [run_append, step_error X herr]

namespace Sample

theorem registered_one : (validatorKeys [info 1]).lookup (Arr.copy 16 [1]) = some (Arr.copy 1952 [1]) := rfl

/-- Two rotations of one validator, the second after the window of the first. -/
def chained : KeyRotationValidator :=
  run prims [.validateAndRecord (rotationTo 1 1 5 10 20), .validateAndRecord (rotationTo 1 5 6 30 40)]
    (new [info 1] 0 defaultConfig)

/-- Both are recorded, with separate windows. -/
def chainedRotations : Computed (chained.rotations (Arr.copy 16 [1])) fun rs =>
    rs.length = 2 ∧ SeparateWindows rs :=
  computed _ ⟨by decide +kernel, by decide +kernel, by decide +kernel⟩

/-- The law holds in the window of the second. -/
theorem chained_lawful : (chained.rotations (Arr.copy 16 [1])).length = 2 ∧
    ∃ keys, chained.getActivePublicKey (Arr.copy 16 [1]) 35 = some keys ∧
      KeyLaw (Arr.copy 1952 [1]) (chained.rotations (Arr.copy 16 [1])) 35 keys := by
  obtain ⟨_, rfl, htwo, hseparate⟩ := chainedRotations
  obtain ⟨keys, hkeys, hiff⟩ := keyLaw_iff prims [info 1] 0 defaultConfig _ registered_one 35
  exact ⟨htwo, keys, hkeys, hiff.2 (unobstructed_of_separate hseparate _ _)⟩

/-- Two rotations of one validator, the second within the window of the first. -/
def nested : KeyRotationValidator :=
  run prims [.validateAndRecord (rotationTo 1 1 5 10 100), .validateAndRecord (rotationTo 1 5 6 20 30)]
    (new [info 1] 0 defaultConfig)

/-- The second is recorded; in and after its window the first two keys are active. -/
def nestedKeys : Computed nested fun v =>
    rotationTo 1 5 6 20 30 ∈ v.rotations (Arr.copy 16 [1]) ∧
      (∀ r ∈ v.rotations (Arr.copy 16 [1]), r.effectiveCycle ≤ (rotationTo 1 5 6 20 30).effectiveCycle) ∧
      v.getActivePublicKey (Arr.copy 16 [1]) 25 = some [Arr.copy 1952 [1], Arr.copy 1952 [5]] ∧
      v.getActivePublicKey (Arr.copy 16 [1]) 50 = some [Arr.copy 1952 [1], Arr.copy 1952 [5]] ∧
      (rotationTo 1 5 6 20 30).newPublicKey ∉ [Arr.copy 1952 [1], Arr.copy 1952 [5]] :=
  computed _ (by decide +kernel)

/-- In the window of the second its key is not active; after that window it is not the only one. -/
theorem nested_unlawful : ∃ keys keys', nested.getActivePublicKey (Arr.copy 16 [1]) 25 = some keys ∧
    nested.getActivePublicKey (Arr.copy 16 [1]) 50 = some keys' ∧
    ¬ KeyLaw (Arr.copy 1952 [1]) (nested.rotations (Arr.copy 16 [1])) 25 keys ∧
    ¬ KeyLaw (Arr.copy 1952 [1]) (nested.rotations (Arr.copy 16 [1])) 50 keys' := by
  obtain ⟨v, rfl, hsecond, hlast, hwithin, hafter, hnew⟩ := nestedKeys
  refine ⟨_, _, hwithin, hafter, fun h => ?_, fun h => ?_⟩
  · exact hnew (h.within _ hsecond (by decide) (by decide))
  · have honly := h.after _ hsecond hlast (by decide) (rotationTo 1 5 6 20 30).newPublicKey
    exact hnew (honly.2 rfl)

end Sample

end Gleipnir
