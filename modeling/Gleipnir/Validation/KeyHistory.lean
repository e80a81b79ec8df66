import Gleipnir.Lib.Guard
import Gleipnir.Lib.Handover
import Gleipnir.Validation.KeyRotation

/-!
# Key histories

What `Validate` and `RecordRotation` let into the history of a validator, and what `GetActivePublicKey` reads off it.

* `validateAndRecord_ok_iff`: a rotation is recorded when it meets the rules (`Rules`), at the end of the history.
* `keysFrom_eq_keysAt`: the loop of `GetActivePublicKey` is the walk over handovers.
* `sound_run`: after any sequence of calls the histories are ascending, and every recorded rotation is signed by a key that
  the history up to it had active right before it.
-/

namespace Gleipnir

open Guard

variable (X : Prims)

/-- A rotation as a handover of the key. -/
def KeyRotationEntry.window (r : KeyRotationEntry) : Handover ℕ (Arr 1952) :=
  ⟨r.effectiveCycle.toNat, r.expiryCycle.toNat, r.newPublicKey⟩

/-- The rotations are listed in the order of their effective cycles. -/
def AscendingCycles (rs : List KeyRotationEntry) : Prop := rs.Pairwise fun r r' => r.effectiveCycle < r'.effectiveCycle

theorem ascending_window {rs : List KeyRotationEntry} (h : AscendingCycles rs) :
    Handover.Ascending (rs.map KeyRotationEntry.window) :=
  List.pairwise_map.2 (h.imp fun hlt => UInt64.lt_iff_toNat_lt.1 hlt)

theorem inOverlap_iff {r : KeyRotationEntry} {cycle : UInt64} :
    r.inOverlap cycle = true ↔ r.window.OpenAt cycle.toNat := by
  simp only [KeyRotationEntry.inOverlap, Bool.and_eq_true, decide_eq_true_eq, UInt64.le_iff_toNat_le]
  rfl

namespace KeyRotationValidator

/-- **The loop of `GetActivePublicKey`** walks over the handovers. -/
theorem keysFrom_eq_keysAt (cycle : UInt64) (rs : List KeyRotationEntry) : ∀ k,
    keysFrom cycle k rs = Handover.keysAt cycle.toNat k (rs.map KeyRotationEntry.window) := by
  induction rs with
  | nil => intro k; rfl
  | cons r rs ih =>
    intro k
    simp only [keysFrom, List.map_cons, Handover.keysAt, UInt64.lt_iff_toNat_lt]
    by_cases hbefore : cycle.toNat < r.effectiveCycle.toNat
    · rw [if_pos hbefore]
      exact (if_pos hbefore).symm
    · have hopen : r.inOverlap cycle = true ↔ cycle.toNat ≤ r.expiryCycle.toNat := by
        rw [inOverlap_iff]
        exact and_iff_right (not_lt.1 hbefore)
      rw [if_neg hbefore, ih]
      simp only [hopen]
      exact (if_neg hbefore).symm

variable {r : KeyRotationEntry} {cycle : UInt64} {pk registered : Arr 1952} {msg sig : Bytes}
  {history before after : List KeyRotationEntry} {v v' : KeyRotationValidator}

/-- A rotation whose window has closed leaves its key to the rest. -/
theorem keysFrom_over (hstart : r.effectiveCycle ≤ cycle) (hover : r.expiryCycle < cycle) (k : Arr 1952)
    (rs : List KeyRotationEntry) : keysFrom cycle k (r :: rs) = keysFrom cycle r.newPublicKey rs := by
  rw [keysFrom_eq_keysAt, keysFrom_eq_keysAt, List.map_cons]
  exact Handover.keysAt_done ⟨UInt64.le_iff_toNat_le.1 hstart, UInt64.lt_iff_toNat_lt.1 hover⟩ _ _

/-- A rotation that takes effect later changes no key of the cycle. -/
theorem keysFrom_append_of_lt {later : List KeyRotationEntry} (h : ∀ r ∈ later, cycle < r.effectiveCycle) (k : Arr 1952)
    (rs : List KeyRotationEntry) : keysFrom cycle k (rs ++ later) = keysFrom cycle k rs := by
  rw [keysFrom_eq_keysAt, keysFrom_eq_keysAt, List.map_append]
  refine Handover.keysAt_append_of_before (fun w hw => ?_) _ k
  obtain ⟨r, hr, rfl⟩ := List.mem_map.1 hw
  exact UInt64.lt_iff_toNat_lt.1 (h r hr)

theorem mem_keysFrom {rs : List KeyRotationEntry} {k : Arr 1952} (h : pk ∈ keysFrom cycle k rs) :
    pk = k ∨ ∃ r ∈ rs, r.effectiveCycle ≤ cycle ∧ r.newPublicKey = pk := by
  rw [keysFrom_eq_keysAt] at h
  rcases Handover.mem_keysAt _ h with heq | ⟨w, hw, hstart, hkey⟩
  · exact .inl heq
  · obtain ⟨r, hr, rfl⟩ := List.mem_map.1 hw
    exact .inr ⟨r, hr, UInt64.le_iff_toNat_le.2 hstart, hkey⟩

theorem authorisingCycle_toNat (r : KeyRotationEntry) : (authorisingCycle r).toNat = r.effectiveCycle.toNat - 1 := by
  unfold authorisingCycle
  split
  · next h => simp [h]
  · next h =>
    have hpos : 1 ≤ r.effectiveCycle := by
      rw [UInt64.le_iff_toNat_le]
      have hne : r.effectiveCycle.toNat ≠ 0 := fun h0 => h (UInt64.toNat_inj.1 h0)
      exact Nat.one_le_iff_ne_zero.2 hne
    rw [UInt64.toNat_sub_of_le _ _ hpos]
    rfl

/-! ## The rules -/

/-- The signatures of a rotation; the outgoing side is one of `outgoing`. -/
def Signed (outgoing : List (Arr 1952)) (r : KeyRotationEntry) : Prop :=
  ∃ payload, r.payloadBytes X = some payload ∧
    (∃ pk ∈ outgoing, verifyDilithium X pk payload r.signatureOld = true) ∧
    verifyDilithium X r.newPublicKey payload r.signatureNew = true

/-- A rotation is newer than a history: it takes effect after the last rotation. -/
def Newer (history : List KeyRotationEntry) (r : KeyRotationEntry) : Prop :=
  ∀ last, history.getLast? = some last → last.effectiveCycle < r.effectiveCycle

/-- What `ValidateAndRecord` asks of a rotation whose submitter has the key `registered` and the given history. -/
structure Rules (current : UInt64) (cfg : Config) (registered : Arr 1952) (history : List KeyRotationEntry)
    (r : KeyRotationEntry) : Prop where
  label : r.label = keyRotationLabel
  hash : r.verifyHash X = true
  signed : Signed X (keysFrom (authorisingCycle r) registered history) r
  lead : current + cfg.keyRotationLeadTime ≤ r.effectiveCycle
  overlap : r.effectiveCycle + cfg.minKeyOverlap ≤ r.expiryCycle
  newer : Newer history r

theorem length_of_verify (h : verifyDilithium X pk msg sig = true) : sig.length = dilithium3SignatureSize := by
  unfold verifyDilithium at h
  split at h
  · cases h
  · next hlen => exact not_not.1 hlen

/-- The rules one by one, as `Validate` goes through them. -/
theorem rules_iff {current : UInt64} {cfg : Config} {payload : Bytes} (hpay : r.payloadBytes X = some payload) :
    Rules X current cfg registered history r ↔
      r.label = keyRotationLabel ∧ r.verifyHash X = true ∧ r.signatureOld.length = dilithium3SignatureSize ∧
        r.signatureNew.length = dilithium3SignatureSize ∧
        (∃ pk ∈ keysFrom (authorisingCycle r) registered history, verifyDilithium X pk payload r.signatureOld = true) ∧
        verifyDilithium X r.newPublicKey payload r.signatureNew = true ∧
        current + cfg.keyRotationLeadTime ≤ r.effectiveCycle ∧
        r.effectiveCycle + cfg.minKeyOverlap ≤ r.expiryCycle ∧ Newer history r := by
  constructor
  · rintro ⟨hlabel, hhash, ⟨payload', hp, ⟨pk, hpk, hold⟩, hnew⟩, hlead, hoverlap, hnewer⟩
    obtain rfl := Option.some.inj (hpay.symm.trans hp)
    -- a signature that verifies has the length of one
    exact ⟨hlabel, hhash, length_of_verify X hold, length_of_verify X hnew, ⟨pk, hpk, hold⟩, hnew, hlead, hoverlap, hnewer⟩
  · rintro ⟨hlabel, hhash, -, -, hold, hnew, hlead, hoverlap, hnewer⟩
    exact ⟨hlabel, hhash, ⟨payload, hpay, hold, hnew⟩, hlead, hoverlap, hnewer⟩

theorem Newer.all (hasc : AscendingCycles history) (h : Newer history r) :
    ∀ r' ∈ history, r'.effectiveCycle < r.effectiveCycle := by
  intro r' hr'
  rcases List.eq_nil_or_concat history with rfl | ⟨before, last, rfl⟩
  · cases hr'
  · have hlast := h last (by simp)
    rw [List.concat_eq_append] at hasc hr'
    rcases List.mem_append.1 hr' with hmem | hmem
    · exact UInt64.lt_trans ((List.pairwise_append.1 hasc).2.2 r' hmem last (List.mem_singleton.2 rfl)) hlast
    · rwa [List.mem_singleton.1 hmem]

theorem ascending_append (hasc : AscendingCycles history) (h : Newer history r) : AscendingCycles (history ++ [r]) := by
  refine List.pairwise_append.2 ⟨hasc, List.pairwise_singleton _ _, fun r' hr' r'' hr'' => ?_⟩
  rw [List.mem_singleton.1 hr'']
  exact h.all hasc r' hr'

/-- The fifth rule in terms of `lastRotationCycle`. -/
theorem newer_iff : Newer (v.rotations r.submitter) r ↔
    ∀ last, v.lastRotationCycle r.submitter = some last → ¬ r.effectiveCycle ≤ last := by
  unfold Newer lastRotationCycle
  cases (v.rotations r.submitter).getLast? with
  | none => simp
  | some last => simp [UInt64.not_le]

theorem verifyAgainstActiveKeys_iff {id : RootID} (h : v.validators.lookup id = some registered) :
    v.verifyAgainstActiveKeys X id registered cycle msg sig = true ↔
      ∃ pk ∈ keysFrom cycle registered (v.rotations id), verifyDilithium X pk msg sig = true := by
  simp only [verifyAgainstActiveKeys, getActivePublicKey, h, Option.map_some, Option.getD_some, List.any_eq_true]

/-- **What `Validate` accepts.** -/
theorem validate_ok_iff : v.validate X r = .ok () ↔
    ∃ registered, v.validators.lookup r.submitter = some registered ∧
      Rules X v.currentCycle v.cfg registered (v.rotations r.submitter) r := by
  unfold validate
  cases hpay : r.payloadBytes X with
  | none =>
    simp only [↓throw_bind, ite_throw_eq_ok, throw_ne_ok]
    constructor
    · rintro ⟨-, -, h⟩
      exact h.elim
    · rintro ⟨registered, -, hrules⟩
      obtain ⟨payload, hp, -⟩ := hrules.signed
      rw [hpay] at hp
      cases hp
  | some payload =>
    cases hreg : v.validators.lookup r.submitter with
    | none =>
      simp only [↓throw_bind, ite_throw_eq_ok, throw_ne_ok]
      constructor
      · rintro ⟨-, -, h⟩
        exact h.elim
      · rintro ⟨registered, h, -⟩
        cases h
    | some registered =>
      simp only [↓throw_bind, ite_throw_eq_ok, not_not, Bool.not_eq_true', Bool.not_eq_false, UInt64.not_lt,
        verifyAgainstActiveKeys_iff X hreg, rules_iff X hpay, newer_iff]
      cases v.lastRotationCycle r.submitter with
      | none => simp
      | some last => simp

/-- The validator with a rotation at the end of the history of its submitter. -/
def append (v : KeyRotationValidator) (r : KeyRotationEntry) : KeyRotationValidator :=
  { v with rotations := Function.update v.rotations r.submitter (v.rotations r.submitter ++ [r]) }

theorem append_rotations (v : KeyRotationValidator) (r : KeyRotationEntry) (id : RootID) :
    (v.append r).rotations id = if id = r.submitter then v.rotations id ++ [r] else v.rotations id := by
  by_cases hid : id = r.submitter
  · subst hid
    simp [append]
  · simp [append, hid]

/-- A newer rotation keeps the histories ascending. -/
theorem ascending_append_rotations (hasc : ∀ id, AscendingCycles (v.rotations id)) (h : Newer (v.rotations r.submitter) r) :
    ∀ id, AscendingCycles ((v.append r).rotations id) := by
  intro id
  rw [append_rotations]
  split
  · next hid =>
    subst hid
    exact ascending_append (hasc _) h
  · exact hasc id

/-- What is recorded is newer than the history, whatever its order. -/
theorem newer_of_recordRotation (h : v.recordRotation r = .ok v') : Newer (v.rotations r.submitter) r := by
  intro last hlast
  unfold recordRotation lastRotationCycle at h
  simp only [hlast, Option.map_some, throw_bind, ite_throw_eq_ok] at h
  exact UInt64.not_le.1 h.1

/-- **What `RecordRotation` accepts**: a rotation that is newer than the history, which goes to its end. -/
theorem recordRotation_ok_iff (hasc : AscendingCycles (v.rotations r.submitter)) :
    v.recordRotation r = .ok v' ↔ Newer (v.rotations r.submitter) r ∧ v' = v.append r := by
  have hend : Newer (v.rotations r.submitter) r →
      (v.rotations r.submitter).findIdx (fun r' => r.effectiveCycle ≤ r'.effectiveCycle) =
        (v.rotations r.submitter).length := by
    intro hnew
    rw [List.findIdx_eq_length]
    intro r' hr'
    simpa using hnew.all hasc r' hr'
  -- the second check of the source never applies: the history ends before the rotation
  have hrest : Newer (v.rotations r.submitter) r → v.recordRotation r = .ok (v.append r) := by
    intro hnew
    unfold recordRotation lastRotationCycle append
    cases hlast : (v.rotations r.submitter).getLast? with
    | none => simp [hend hnew]
    | some last => simp [hend hnew, UInt64.not_le.2 (hnew last hlast)]
  by_cases hnew : Newer (v.rotations r.submitter) r
  · rw [hrest hnew]
    simp only [hnew, true_and, Except.ok.injEq, eq_comm]
  · simp only [hnew, false_and, iff_false]
    exact fun h => hnew (newer_of_recordRotation h)

/-- **What `ValidateAndRecord` accepts.** -/
theorem validateAndRecord_ok_iff (hasc : AscendingCycles (v.rotations r.submitter)) :
    v.validateAndRecord X r = .ok v' ↔ ∃ registered, v.validators.lookup r.submitter = some registered ∧
      Rules X v.currentCycle v.cfg registered (v.rotations r.submitter) r ∧ v' = v.append r := by
  unfold validateAndRecord
  rw [bind_eq_ok]
  constructor
  · rintro ⟨⟨⟩, hvalid, hrecord⟩
    obtain ⟨registered, hreg, hrules⟩ := (validate_ok_iff X).1 hvalid
    exact ⟨registered, hreg, hrules, ((recordRotation_ok_iff hasc).1 hrecord).2⟩
  · rintro ⟨registered, hreg, hrules, rfl⟩
    exact ⟨(), (validate_ok_iff X).2 ⟨registered, hreg, hrules⟩, (recordRotation_ok_iff hasc).2 ⟨hrules.newer, rfl⟩⟩

/-! ## Sequences of calls -/

/-- The calls that change the history or the cycle it is extended at. -/
inductive Command where
  | setCycle (cycle : UInt64)
  | validateAndRecord (r : KeyRotationEntry)

/-- One call; a rotation that is refused leaves the validator as it is. -/
def step (v : KeyRotationValidator) : Command → KeyRotationValidator
  | .setCycle cycle => v.setCycle cycle
  | .validateAndRecord r => (v.validateAndRecord X r).toOption.getD v

theorem step_ok (h : v.validateAndRecord X r = .ok v') : step X v (.validateAndRecord r) = v' := by
  simp [step, h, Except.toOption]

/-- A refused rotation leaves no trace. -/
theorem step_error {err : KeyRotationError} (h : v.validateAndRecord X r = .error err) :
    step X v (.validateAndRecord r) = v := by
  simp [step, h, Except.toOption]

theorem step_refused (h : ∀ v', v.validateAndRecord X r ≠ .ok v') : step X v (.validateAndRecord r) = v := by
  cases hres : v.validateAndRecord X r with
  | error err => exact step_error X hres
  | ok v' => exact absurd hres (h v')

/-- A sequence of calls. -/
def run (cmds : List Command) (v : KeyRotationValidator) : KeyRotationValidator := cmds.foldl (step X) v

theorem run_append (cmds : List Command) (c : Command) (v : KeyRotationValidator) :
    run X (cmds ++ [c]) v = step X (run X cmds v) c := by
  rw [run, List.foldl_append]
  rfl

/-- What holds of every history: it is ascending, and each rotation was signed by a key that was active right before it in
the history up to it. -/
structure Sound (v : KeyRotationValidator) : Prop where
  ascending : ∀ id, AscendingCycles (v.rotations id)
  authorised : ∀ id before r after, v.rotations id = before ++ r :: after → ∃ registered,
    v.validators.lookup id = some registered ∧ Signed X (keysFrom (authorisingCycle r) registered before) r

theorem sound_new (validators : List ValidatorInfo) (current : UInt64) (cfg : Config) :
    Sound X (new validators current cfg) := by
  refine ⟨fun id => List.Pairwise.nil, fun id before r after h => ?_⟩
  have hlen := congrArg List.length h
  simp [new] at hlen

/-- The rotation that extends a history, or one of the history before. -/
theorem split_concat {r' : KeyRotationEntry} (h : history ++ [r'] = before ++ r :: after) :
    (history = before ∧ r' = r) ∨ ∃ after', history = before ++ r :: after' := by
  rcases List.eq_nil_or_concat after with rfl | ⟨after', last, rfl⟩
  · obtain ⟨hh, hr⟩ := List.append_inj' h rfl
    exact .inl ⟨hh, (List.cons.inj hr).1⟩
  · rw [List.concat_eq_append, ← List.cons_append, ← List.append_assoc] at h
    exact .inr ⟨after', (List.append_inj' h rfl).1⟩

/-- An accepted rotation keeps the history sound. -/
theorem sound_append (hs : Sound X v) (hreg : v.validators.lookup r.submitter = some registered)
    (hsigned : Signed X (keysFrom (authorisingCycle r) registered (v.rotations r.submitter)) r)
    (hnewer : Newer (v.rotations r.submitter) r) : Sound X (v.append r) := by
  refine ⟨ascending_append_rotations hs.ascending hnewer, fun id before r' after h => ?_⟩
  rw [append_rotations] at h
  split at h
  · next hid =>
    subst hid
    rcases split_concat h with ⟨rfl, rfl⟩ | ⟨after', hold⟩
    · exact ⟨registered, hreg, hsigned⟩
    · exact hs.authorised _ before r' after' hold
  · exact hs.authorised id before r' after h

/-- One call appends a rotation that meets the rules, or leaves the histories as they are. -/
theorem step_cases (hasc : ∀ id, AscendingCycles (v.rotations id)) (c : Command) :
    ((step X v c).validators = v.validators ∧ (step X v c).cfg = v.cfg ∧ (step X v c).rotations = v.rotations) ∨
      ∃ r registered, c = .validateAndRecord r ∧ v.validators.lookup r.submitter = some registered ∧
        Rules X v.currentCycle v.cfg registered (v.rotations r.submitter) r ∧ step X v c = v.append r := by
  cases c with
  | setCycle cycle => exact .inl ⟨rfl, rfl, rfl⟩
  | validateAndRecord r =>
    cases h : v.validateAndRecord X r with
    | error err =>
      rw [step_error X h]
      exact .inl ⟨rfl, rfl, rfl⟩
    | ok v' =>
      obtain ⟨registered, hreg, hrules, rfl⟩ := (validateAndRecord_ok_iff X (hasc _)).1 h
      exact .inr ⟨r, registered, rfl, hreg, hrules, step_ok X h⟩

theorem sound_step (hs : Sound X v) (c : Command) : Sound X (step X v c) := by
  rcases step_cases X hs.ascending c with ⟨hvalidators, -, hrotations⟩ | ⟨r, registered, -, hreg, hrules, h⟩
  · refine ⟨fun id => ?_, fun id before r after h => ?_⟩
    · rw [hrotations]
      exact hs.ascending id
    · rw [hrotations] at h
      rw [hvalidators]
      exact hs.authorised id before r after h
  · rw [h]
    exact sound_append X hs hreg hrules.signed hrules.newer

/-- **Every sequence of calls** keeps the histories sound. -/
theorem sound_run (cmds : List Command) : ∀ {v : KeyRotationValidator}, Sound X v → Sound X (run X cmds v) := by
  induction cmds with
  | nil => intro v hs; exact hs
  | cons c cmds ih => intro v hs; exact ih (sound_step X hs c)

theorem validators_step (v : KeyRotationValidator) (c : Command) : (step X v c).validators = v.validators := by
  cases c with
  | setCycle cycle => rfl
  | validateAndRecord r =>
    cases h : v.validateAndRecord X r with
    | error err => rw [step_error X h]
    | ok v' =>
      obtain ⟨before, after, -, rfl⟩ := recordRotation_ok (validateAndRecord_ok X h)
      rw [step_ok X h]

theorem validators_run (cmds : List Command) : ∀ v : KeyRotationValidator, (run X cmds v).validators = v.validators := by
  induction cmds with
  | nil => intro v; rfl
  | cons c cmds ih => intro v; exact (ih (step X v c)).trans (validators_step X v c)

/-! ## Batches -/

/-- `ValidateAndRecord` of one rotation after the other. -/
def recordAll (rs : List KeyRotationEntry) (v : KeyRotationValidator) : KeyRotationValidator :=
  run X (rs.map .validateAndRecord) v

theorem recordAll_cons (r : KeyRotationEntry) (rs : List KeyRotationEntry) (v : KeyRotationValidator) :
    recordAll X (r :: rs) v = recordAll X rs (step X v (.validateAndRecord r)) := rfl

/-- The histories have grown by rotations that keep the lead time. -/
structure Grown (v v' : KeyRotationValidator) : Prop where
  validators : v'.validators = v.validators
  currentCycle : v'.currentCycle = v.currentCycle
  cfg : v'.cfg = v.cfg
  rotations : ∀ id, ∃ later, v'.rotations id = v.rotations id ++ later ∧
    ∀ r ∈ later, v.currentCycle + v.cfg.keyRotationLeadTime ≤ r.effectiveCycle

theorem Grown.refl (v : KeyRotationValidator) : Grown v v :=
  ⟨rfl, rfl, rfl, fun _ => ⟨[], (List.append_nil _).symm, nofun⟩⟩

theorem Grown.trans {v₁ : KeyRotationValidator} (h : Grown v v₁) (h' : Grown v₁ v') : Grown v v' := by
  refine ⟨h'.validators.trans h.validators, h'.currentCycle.trans h.currentCycle, h'.cfg.trans h.cfg, fun id => ?_⟩
  obtain ⟨later, heq, hlead⟩ := h.rotations id
  obtain ⟨later', heq', hlead'⟩ := h'.rotations id
  refine ⟨later ++ later', by rw [heq', heq, List.append_assoc], fun r hr => ?_⟩
  rcases List.mem_append.1 hr with hr | hr
  · exact hlead r hr
  · rw [← h.currentCycle, ← h.cfg]
    exact hlead' r hr

/-- One rotation. -/
theorem grown_step (hasc : ∀ id, AscendingCycles (v.rotations id)) (r : KeyRotationEntry) :
    Grown v (step X v (.validateAndRecord r)) ∧
      ∀ id, AscendingCycles ((step X v (.validateAndRecord r)).rotations id) := by
  cases h : v.validateAndRecord X r with
  | error err =>
    rw [step_error X h]
    exact ⟨.refl v, hasc⟩
  | ok v' =>
    obtain ⟨registered, -, hrules, rfl⟩ := (validateAndRecord_ok_iff X (hasc _)).1 h
    rw [step_ok X h]
    refine ⟨⟨rfl, rfl, rfl, fun id => ?_⟩, ascending_append_rotations hasc hrules.newer⟩
    rw [append_rotations]
    split
    · refine ⟨[r], rfl, fun r' hr' => ?_⟩
      rw [List.mem_singleton.1 hr']
      exact hrules.lead
    · exact ⟨[], (List.append_nil _).symm, nofun⟩

/-- **A batch of rotations** makes the histories grow, and keeps them ascending. -/
theorem grown_recordAll (rs : List KeyRotationEntry) : ∀ {v : KeyRotationValidator},
    (∀ id, AscendingCycles (v.rotations id)) →
    Grown v (recordAll X rs v) ∧ ∀ id, AscendingCycles ((recordAll X rs v).rotations id) := by
  induction rs with
  | nil => intro v hasc; exact ⟨.refl v, hasc⟩
  | cons r rs ih =>
    intro v hasc
    obtain ⟨hgrown, hasc₁⟩ := grown_step X hasc r
    obtain ⟨hgrown', hasc'⟩ := ih hasc₁
    exact ⟨hgrown.trans hgrown', hasc'⟩

/-- Rotations that do not pass `Validate` leave the histories as they are. -/
theorem recordAll_refused (rs : List KeyRotationEntry) (h : ∀ r ∈ rs, v.validate X r ≠ .ok ()) : recordAll X rs v = v := by
  induction rs with
  | nil => rfl
  | cons r rs ih =>
    have hrefused : ∀ v', v.validateAndRecord X r ≠ .ok v' := by
      intro v' hok
      obtain ⟨⟨⟩, hvalid, -⟩ := bind_eq_ok.1 hok
      exact h r List.mem_cons_self hvalid
    rw [recordAll_cons, step_refused X hrefused]
    exact ih fun r' hr' => h r' (List.mem_cons_of_mem _ hr')

/-- Two validators that differ in their cycles at most record the same rotations, provided that the lead time of each rotation
has the same verdict in both cycles. -/
theorem recordAll_congr (rs : List KeyRotationEntry) : ∀ {v w : KeyRotationValidator},
    v.validators = w.validators → v.cfg = w.cfg → v.rotations = w.rotations →
    (∀ id, AscendingCycles (v.rotations id)) →
    (∀ r ∈ rs, v.currentCycle + v.cfg.keyRotationLeadTime ≤ r.effectiveCycle ↔
      w.currentCycle + v.cfg.keyRotationLeadTime ≤ r.effectiveCycle) →
    (recordAll X rs v).rotations = (recordAll X rs w).rotations := by
  induction rs with
  | nil => intro v w _ _ hrot _ _; exact hrot
  | cons r rs ih =>
    intro v w hvalidators hcfg hrot hasc hlead
    have hrest := fun r' hr' => hlead r' (List.mem_cons_of_mem r hr')
    have hrules : ∀ registered, Rules X v.currentCycle v.cfg registered (v.rotations r.submitter) r ↔
        Rules X w.currentCycle w.cfg registered (w.rotations r.submitter) r := by
      intro registered
      have hr := hlead r List.mem_cons_self
      rw [← hcfg, ← hrot]
      exact ⟨fun h => ⟨h.label, h.hash, h.signed, hr.1 h.lead, h.overlap, h.newer⟩,
        fun h => ⟨h.label, h.hash, h.signed, hr.2 h.lead, h.overlap, h.newer⟩⟩
    rw [recordAll_cons, recordAll_cons]
    by_cases haccept : ∃ registered, v.validators.lookup r.submitter = some registered ∧
        Rules X v.currentCycle v.cfg registered (v.rotations r.submitter) r
    · -- both record it
      obtain ⟨registered, hreg, hok⟩ := haccept
      have hv := (validateAndRecord_ok_iff X (hasc _)).2 ⟨registered, hreg, hok, rfl⟩
      have hw := (validateAndRecord_ok_iff X (hrot ▸ hasc _)).2
        ⟨registered, hvalidators ▸ hreg, (hrules registered).1 hok, rfl⟩
      rw [step_ok X hv, step_ok X hw]
      refine ih hvalidators hcfg ?_ (ascending_append_rotations hasc hok.newer) hrest
      rw [append, append, hrot]
    · -- both refuse it
      rw [step_refused X (v := v), step_refused X (v := w)]
      · exact ih hvalidators hcfg hrot hasc hrest
      · intro w' hw
        obtain ⟨registered, hreg, hok, -⟩ := (validateAndRecord_ok_iff X (hrot ▸ hasc _)).1 hw
        exact haccept ⟨registered, hvalidators ▸ hreg, (hrules registered).2 hok⟩
      · intro v' hv
        obtain ⟨registered, hreg, hok, -⟩ := (validateAndRecord_ok_iff X (hasc _)).1 hv
        exact haccept ⟨registered, hreg, hok⟩

/-- The keys of a cycle that the lead time has put out of reach stay. -/
theorem Grown.activeKeys (h : Grown v v') (hcycle : cycle < v.currentCycle + v.cfg.keyRotationLeadTime) (id : RootID) :
    v'.getActivePublicKey id cycle = v.getActivePublicKey id cycle := by
  obtain ⟨later, heq, hlead⟩ := h.rotations id
  have hlater : ∀ r ∈ later, cycle < r.effectiveCycle := fun r hr => UInt64.lt_of_lt_of_le hcycle (hlead r hr)
  simp only [getActivePublicKey, h.validators, heq, keysFrom_append_of_lt hlater]

/-! ## Authority -/

/-- The keys right before a rotation are the same in the history up to it and in the whole one, which for a rotation of the
cycle zero has the rotation's own key besides. -/
theorem keysFrom_before_subset (hasc : AscendingCycles (before ++ r :: after)) :
    keysFrom (authorisingCycle r) registered before ⊆ keysFrom (authorisingCycle r) registered (before ++ r :: after) := by
  obtain ⟨-, hrest, hbefore⟩ := List.pairwise_append.1 hasc
  by_cases hzero : r.effectiveCycle = 0
  · -- nothing takes effect before the cycle zero
    have hnil : before = [] := by
      rw [List.eq_nil_iff_forall_not_mem]
      intro r' hr'
      have hlt := UInt64.lt_iff_toNat_lt.1 (hbefore r' hr' r List.mem_cons_self)
      simp [hzero] at hlt
    subst hnil
    have hopen : r.inOverlap (authorisingCycle r) = true := by
      simp [KeyRotationEntry.inOverlap, authorisingCycle, hzero]
    have hnot : ¬ authorisingCycle r < r.effectiveCycle := by simp [hzero]
    intro pk hpk
    simp only [keysFrom, List.mem_singleton] at hpk
    simp [keysFrom, hopen, hnot, hpk]
  · have hlater : ∀ r' ∈ r :: after, authorisingCycle r < r'.effectiveCycle := by
      intro r' hr'
      have hpos : r.effectiveCycle.toNat ≠ 0 := fun h0 => hzero (UInt64.toNat_inj.1 h0)
      have hself : authorisingCycle r < r.effectiveCycle := by
        rw [UInt64.lt_iff_toNat_lt, authorisingCycle_toNat]
        omega
      rcases List.mem_cons.1 hr' with rfl | hr'
      · exact hself
      · exact UInt64.lt_trans hself ((List.pairwise_cons.1 hrest).1 r' hr')
    rw [keysFrom_append_of_lt hlater]
    exact List.Subset.refl _

end KeyRotationValidator

end Gleipnir
