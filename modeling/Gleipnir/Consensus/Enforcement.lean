import Gleipnir.Consensus.MandateAuthority
import Gleipnir.Validation.Lineage

/-!
# The mandates in force

What an engine holds its entries to is what its mandate resolver returns.

* `enforceable_authentic`: in every run, whatever the resolver returns is named by the hash of its contents and signed by
  the key that the engine was built with for its authority.
* `uncancelled_iff`: a mandate stays in force when another authority's is registered, unless that one claims to supersede it.
-/

namespace Gleipnir

open Atomic Atomic.Body

variable (X : Prims)

/-! ## The answers of a resolver -/

namespace MandateResolver

/-- The mandate is in some answer of the resolver. -/
inductive Returns (r : MandateResolver) (m : MandateEntry) : Prop
  | byID (id : Hash) (h : r.getMandateByID id = some m)
  | byReference (ref : Option Hash) (h : r.getMandateByReference ref = some m)
  | listed (h : m ∈ r.all)
  | active (timestamp : Int64) (h : m ∈ r.getActiveMandates timestamp)
  | latest (root : Hash) (h : r.getLatestVersion root = some m)

/-- Whatever the resolver returns is kept in it. -/
theorem Returns.lookup {r : MandateResolver} {m : MandateEntry} (h : r.Returns m) : ∃ id, r.lookup id = some m := by
  cases h with
  | byID id h => exact ⟨id, h⟩
  | byReference ref h =>
    cases ref with
    | none => cases h
    | some ref => exact ⟨ref, h⟩
  | listed h => exact mem_all.1 h
  | active timestamp h => exact mem_all.1 (mem_getActiveMandates.1 h).1
  | latest root h => exact mem_all.1 (getLatestVersion_mem h)

variable {X}

/-- A mandate with the right identifier is kept as it is. -/
theorem lookup_put {r : MandateResolver} {m : MandateEntry} (hm : m.verifyHash X = true) (id : Hash) :
    (r.put X m).lookup id = if id = m.id then some m else r.lookup id := by
  have hid : m.mandateID X = m.id := (beq_iff_eq.1 hm).symm
  rw [lookup_put_eq, hid]

end MandateResolver

/-! ## What a step admits -/

/-- `e'` enforces what `e` does and mandates that pass the authority check, and has the keys of `e` for the authorities. -/
structure Enforces (e e' : Engine) : Prop where
  authorities : e'.mandateAuthorityLookup = e.mandateAuthorityLookup
  mandates : ∀ id m, e'.mandateResolver.lookup id = some m → e.mandateResolver.lookup id = some m ∨
    m.id = id ∧ validateMandateAuthority X m e.mandateAuthorityLookup = .ok ()

variable {e e' : Engine} {m : MandateEntry} {l : Called} {τ : List (Transition Engine Called)}

/-- The authorities are looked up in the validator set and in the keys of the nodes. -/
theorem mandateAuthorityLookup_congr (hset : e'.state.validatorSet = e.state.validatorSet)
    (hkeys : ∀ id, (e'.state.nodes.lookup id).map (·.dilithium3PK) = (e.state.nodes.lookup id).map (·.dilithium3PK)) :
    e'.mandateAuthorityLookup = e.mandateAuthorityLookup := by
  funext id
  simp only [Engine.mandateAuthorityLookup, hset]
  split
  · rfl
  · have h := hkeys (hexEncode id.toList)
    cases hn : e.state.nodes.lookup (hexEncode id.toList) with
    | none =>
      rw [hn, Option.map_none, Option.map_eq_none_iff] at h
      rw [h]
    | some n =>
      rw [hn, Option.map_some, Option.map_eq_some_iff] at h
      obtain ⟨n', hn', hpk⟩ := h
      simp only [hn', hpk]

variable {X}

theorem enforces_of_same (hstate : e'.state = e.state) (hr : e'.mandateResolver = e.mandateResolver) : Enforces X e e' :=
  ⟨mandateAuthorityLookup_congr (by rw [hstate]) (fun _ => by rw [hstate]), fun id m h => .inl (hr ▸ h)⟩

instance : Std.Refl (Enforces X) := ⟨fun _ => enforces_of_same rfl rfl⟩

theorem Enforces.trans {a b c : Engine} (h : Enforces X a b) (h' : Enforces X b c) : Enforces X a c := by
  refine ⟨h'.authorities.trans h.authorities, fun id m hm => ?_⟩
  rcases h'.mandates id m hm with hb | ⟨hid, hpass⟩
  · exact h.mandates id m hb
  · rw [h.authorities] at hpass
    exact .inr ⟨hid, hpass⟩

instance : IsTrans Engine (Enforces X) := ⟨fun _ _ _ => Enforces.trans⟩

/-- Putting a mandate that passes the check. -/
theorem enforces_put (hstate : e'.state = e.state) (hr : e'.mandateResolver = e.mandateResolver.put X m)
    (hpass : validateMandateAuthority X m e.mandateAuthorityLookup = .ok ()) : Enforces X e e' := by
  refine ⟨mandateAuthorityLookup_congr (by rw [hstate]) (fun _ => by rw [hstate]), fun id n hn => ?_⟩
  rw [hr, MandateResolver.lookup_put ((validateMandateAuthority_ok_iff X).1 hpass).1] at hn
  split at hn
  · next hid =>
    cases hn
    exact .inr ⟨hid.symm, hpass⟩
  · exact .inl hn

variable (X)

theorem enforces_setQuorumConfig (e : Engine) (config : QuorumConfig) : Enforces X e (e.setQuorumConfig config) := by
  unfold Engine.setQuorumConfig
  split
  · exact enforces_of_same rfl rfl
  · exact refl e

theorem moves_enforces : Moves X (Enforces X) where
  queued := by
    rintro e _ ⟨pending, rateLimiter, rfl⟩
    exact enforces_of_same rfl rfl
  sync _ := enforces_of_same rfl rfl
  rotation _ _ := enforces_of_same rfl rfl
  mandate _ _ hpass := enforces_put rfl rfl hpass
  limits _ _ := enforces_of_same rfl rfl
  quorum := enforces_setQuorumConfig X
  stopped _ := enforces_of_same rfl rfl

theorem enforces_processMandate (e : Engine) (pe : ProvenanceEntry) : Enforces X e (e.processMandate X pe) := by
  unfold Engine.processMandate
  split
  · exact refl e
  · split
    · exact refl e
    · split
      · exact refl e
      · next hpass => exact enforces_put rfl rfl hpass

theorem enforces_ready (e : Engine) (pool : List ProvenanceEntry) : Enforces X e (e.ready X pool) := by
  obtain ⟨pending, hstart⟩ := e.start_eq pool
  obtain ⟨v, hrotations⟩ := Engine.processKeyRotationEntries_eq X (e.start pool).allPending (e.start pool)
  have hbefore : Enforces X e ((e.start pool).processKeyRotationEntries X (e.start pool).allPending) := by
    rw [hrotations, hstart]
    exact enforces_of_same rfl rfl
  refine List.foldlRecOn (motive := Enforces X e) _ _ hbefore fun e' h pe _ => ?_
  exact h.trans (enforces_processMandate X e' pe)

/-- The phases of a cycle leave the mandates alone. -/
theorem enforces_phases {e₂ : Engine} {pool : List ProvenanceEntry} {t : Trace} {x : Exit (Option (Block × Bool))}
    (h : e.Phases X pool t x e₂) : Enforces X e e₂ := by
  obtain ⟨st, rfl⟩ := phases_frame X h
  exact (enforces_ready X e pool).trans (enforces_of_same rfl rfl)

/-- Counting a cycle keeps the keys of the authorities. -/
theorem enforces_counted (hset : e'.state.validatorSet = e.state.validatorSet) (hnodes : e'.state.nodes = e.state.nodes)
    (hr : e'.mandateResolver = e.mandateResolver) : Enforces X e e' :=
  ⟨mandateAuthorityLookup_congr hset fun _ => by rw [hnodes], fun _ _ h => .inl (hr ▸ h)⟩

theorem beat_dilithium3PK (heartbeats : List String) (cfg : Config) (uid : String) (node : NodeState) :
    (beat heartbeats cfg uid node).dilithium3PK = node.dilithium3PK := by
  unfold beat
  split <;> rfl

theorem enforces_cycle {t : Trace} {x : Exit Unit} (h : Cycled X e t x e') : Enforces X e e' := by
  cases h with
  | @skipped pool hs =>
    obtain ⟨pending, hstart⟩ := e.start_eq pool
    rw [hstart]
    exact enforces_counted X rfl rfl rfl
  | panicked hs hp => exact enforces_phases X hp
  | aborted hs hp => exact (enforces_phases X hp).trans (enforces_counted X rfl rfl rfl)
  | failed hs hp hc =>
    rw [conclude_none hc]
    exact (enforces_phases X hp).trans (enforces_counted X rfl rfl rfl)
  | committed hs hp hc =>
    obtain ⟨next, -, happly, hpost⟩ := conclude_some hc
    rw [hpost]
    refine (enforces_phases X hp).trans ⟨mandateAuthorityLookup_congr (apply_ok X happly).2 fun id => ?_, fun _ _ => .inl⟩
    show (next.nodes.lookup id).map _ = _
    rw [apply_nodes X happly, lookup_mapNodes, Option.map_map]
    simp only [Function.comp_def, beat_dilithium3PK]

theorem enforces_step (h : EngineStep X e l e') : Enforces X e e' := by
  by_cases hc : l.call = .runCycle
  · rw [EngineStep, hc] at h
    obtain ⟨x, hcycled⟩ := run_runCycle X h
    exact enforces_cycle X hcycled
  · obtain ⟨⟨x, s⟩, rfl, hrun⟩ := run_map.1 h
    exact ((moves_enforces X).call hc _ _ _ _ hrun).1

theorem enforces_run (h : EngineRun X e τ e') : Enforces X e e' := by
  refine h.preserves ?_ (refl e)
  intro s l s' hstep hs
  exact hs.trans (enforces_step X hstep)

/-! ## Authenticity -/

/-- What the resolver keeps has passed the check, under the keys the engine was built with. -/
theorem kept_mandate {e₀ : Engine} (hf : e₀.Fresh) (h : EngineRun X e₀ τ e) {id : Hash}
    (hm : e.mandateResolver.lookup id = some m) :
    m.id = id ∧ validateMandateAuthority X m e₀.mandateAuthorityLookup = .ok () := by
  rcases (enforces_run X h).mandates id m hm with hold | hnew
  · rw [hf.blank.mandateResolver] at hold
    cases hold
  · exact hnew

theorem verifyAuthoritySignature_iff {pk : Arr 1952} : m.verifyAuthoritySignature X pk = true ↔
    ∃ payload, m.marshalPayloadCBOR X = some payload ∧ verifyDilithium X pk payload m.signature = true := by
  unfold MandateEntry.verifyAuthoritySignature
  by_cases hlen : m.signature.length = dilithium3SignatureSize
  · cases m.marshalPayloadCBOR X with
    | none => simp
    | some payload => simp [hlen]
  · simp [hlen, verifyDilithium]

/-- **Only authentic mandates are enforceable.** -/
theorem enforceable_authentic {e₀ e : Engine} {τ : List (Transition Engine Called)} (hf : e₀.Fresh)
    (h : EngineRun X e₀ τ e) {m : MandateEntry} (hm : e.mandateResolver.Returns m) :
    m.id = m.mandateID X ∧ e.mandateAuthorityLookup = e₀.mandateAuthorityLookup ∧
      ∃ pk payload, e₀.mandateAuthorityLookup m.authority = some pk ∧ m.marshalPayloadCBOR X = some payload ∧
        verifyDilithium X pk payload m.signature = true := by
  obtain ⟨id, hid⟩ := hm.lookup
  obtain ⟨-, hpass⟩ := kept_mandate X hf h hid
  obtain ⟨hhash, pk, hpk, hverify⟩ := (validateMandateAuthority_ok_iff X).1 hpass
  obtain ⟨payload, hpayload, hsigned⟩ := (verifyAuthoritySignature_iff X).1 hverify
  exact ⟨beq_iff_eq.1 hhash, (enforces_run X h).authorities, pk, payload, hpk, hpayload, hsigned⟩

/-! ## Supersession -/

/-- The resolver after a call with a mandate that passes the check. -/
theorem lookup_registered (hc : l.call = .submitMandate m ∨ l.call = .recordMandateBody m) (hstep : EngineStep X e l e')
    (hpass : validateMandateAuthority X m e.mandateAuthorityLookup = .ok ()) (id : Hash) :
    e'.mandateResolver.lookup id = if id = m.id then some m else e.mandateResolver.lookup id := by
  rcases mandate_step X hc hstep with ⟨-, pending, limiter, rfl⟩ | ⟨err, herr, -⟩
  · exact MandateResolver.lookup_put ((validateMandateAuthority_ok_iff X).1 hpass).1 id
  · rw [hpass] at herr
    cases herr

/-- **A mandate and those of other authorities.** One that is in force stays so when a mandate of another authority is
registered exactly if that one neither has its identifier nor names it as the one it supersedes. -/
theorem uncancelled_iff {e₀ e e' : Engine} {τ : List (Transition Engine Called)} (hf : e₀.Fresh)
    (h : EngineRun X e₀ τ e) {a b : MandateEntry} (hab : a.authority ≠ b.authority) {l : Called}
    (hc : l.call = .submitMandate b ∨ l.call = .recordMandateBody b) (hstep : EngineStep X e l e')
    (hpass : validateMandateAuthority X b e.mandateAuthorityLookup = .ok ()) {timestamp : Int64}
    (ha : a ∈ e.mandateResolver.getActiveMandates timestamp) :
    a ∈ e'.mandateResolver.getActiveMandates timestamp ↔
      b.id ≠ a.id ∧ (b.supersedes = a.id → a.id = Arr.zero 32) := by
  obtain ⟨hall, hfree, hactive⟩ := MandateResolver.mem_getActiveMandates.1 ha
  obtain ⟨id, hid⟩ := MandateResolver.mem_all.1 hall
  obtain rfl : a.id = id := (kept_mandate X hf h hid).1
  have hlookup := lookup_registered X hc hstep hpass
  have hb : b ∈ e'.mandateResolver.all := MandateResolver.mem_all.2 ⟨b.id, by rw [hlookup, if_pos rfl]⟩
  rw [MandateResolver.mem_getActiveMandates]
  constructor
  · rintro ⟨hall', hfree', -⟩
    refine ⟨fun hsame => ?_, hfree' b hb⟩
    -- the identifier now names the other mandate
    obtain ⟨id', hid'⟩ := MandateResolver.mem_all.1 hall'
    rw [hlookup] at hid'
    split at hid'
    · cases hid'
      exact hab rfl
    · next hne =>
      have hkey := (kept_mandate X hf h hid').1
      exact hne (hkey.symm.trans hsame.symm)
  · rintro ⟨hne, hsup⟩
    refine ⟨MandateResolver.mem_all.2 ⟨a.id, by rw [hlookup, if_neg (Ne.symm hne), hid]⟩, ?_, hactive⟩
    intro n hn hs
    obtain ⟨id', hid'⟩ := MandateResolver.mem_all.1 hn
    rw [hlookup] at hid'
    split at hid'
    · cases hid'
      exact hsup hs
    · exact hfree n (MandateResolver.mem_all.2 ⟨id', hid'⟩) hs

namespace Sample

/-- The instance with an encoding of mandates that covers what they supersede. -/
def sealing : Prims :=
  { prims with cborMandate := fun m => some (m.authority.toList ++ le64 m.version ++ m.supersedes.toList) }

/-- A mandate of the validator `k`, signed by it, in place of the one with the identifier `supersedes`. -/
def issued (k : UInt8) (supersedes : Hash) : MandateEntry :=
  let draft : MandateEntry := {
    id := Arr.zero 32
    authority := Arr.copy 16 [k]
    version := 1
    prevVersion := Arr.zero 32
    validFrom := 1
    validUntil := 0
    supersedes
    rules := []
    policyHash := Arr.zero 32
    policyURI := []
    signature := [] }
  { draft with id := draft.mandateID sealing, signature := stamp k ((draft.marshalPayloadCBOR sealing).getD []) }

/-- Well formed, and signed under the key of the validator `k`. -/
def IssuedBy (k : UInt8) (m : MandateEntry) : Prop :=
  m.verifyHash sealing = true ∧ m.authority = Arr.copy 16 [k] ∧
    m.verifyAuthoritySignature sealing (info k).dilithium3PK = true

instance (k : UInt8) (m : MandateEntry) : Decidable (IssuedBy k m) := inferInstanceAs (Decidable (_ ∧ _ ∧ _))

/-- A mandate of the first validator, and two of the second: one that claims to supersede it, one that does not. -/
def rivals : Computed (issued 1 (Arr.zero 32), issued 2 (issued 1 (Arr.zero 32)).id, issued 2 (Arr.zero 32)) fun x =>
    IssuedBy 1 x.1 ∧ IssuedBy 2 x.2.1 ∧ IssuedBy 2 x.2.2 ∧ x.1.supersedes = Arr.zero 32 ∧ x.1.isActiveAt 1 = true ∧
      x.1.id ≠ Arr.zero 32 ∧ x.2.1.supersedes = x.1.id ∧ x.2.2.supersedes = Arr.zero 32 ∧ x.2.2.id ≠ x.1.id :=
  computed _ (by decide +kernel)

variable {τ : List (Transition Engine Called)} {e : Engine} {m : MandateEntry}

/-- The engine of the first of two validators looks both of them up. -/
theorem lookup_two (h : EngineRun sealing (two 1) τ e) :
    e.mandateAuthorityLookup (Arr.copy 16 [1]) = some (info 1).dilithium3PK ∧
      e.mandateAuthorityLookup (Arr.copy 16 [2]) = some (info 2).dilithium3PK := by
  rw [(enforces_run sealing h).authorities]
  exact ⟨rfl, rfl⟩

theorem passes_two (h : EngineRun sealing (two 1) τ e) {k : UInt8} (hk : k = 1 ∨ k = 2) (hm : IssuedBy k m) :
    validateMandateAuthority sealing m e.mandateAuthorityLookup = .ok () := by
  obtain ⟨hhash, hauthority, hsigned⟩ := hm
  refine (validateMandateAuthority_ok_iff sealing).2 ⟨hhash, _, ?_, hsigned⟩
  rw [hauthority]
  rcases hk with rfl | rfl
  · exact (lookup_two h).1
  · exact (lookup_two h).2

/-- The engine after the body of a mandate was handed to it. -/
def recorded (m : MandateEntry) (e : Engine) : Called × Engine :=
  let x := serveOn MemoryBus.new ((Call.recordMandateBody m).prog sealing e)
  (⟨.recordMandateBody m, x.2.1⟩, x.1)

theorem step_recorded (m : MandateEntry) (e : Engine) : EngineStep sealing e (recorded m e).1 (recorded m e).2 :=
  run_serveOn _ _

theorem run_recorded (m : MandateEntry) :
    EngineRun sealing (two 1) [⟨two 1, (recorded m (two 1)).1, (recorded m (two 1)).2⟩] (recorded m (two 1)).2 :=
  .cons (step_recorded m _) (.nil _)

/-- The mandate of the first validator is in force once it is recorded. -/
theorem recorded_active (hm : IssuedBy 1 m) (hsup : m.supersedes = Arr.zero 32) (hactive : m.isActiveAt 1 = true) :
    m ∈ (recorded m (two 1)).2.mandateResolver.getActiveMandates 1 := by
  have hlookup := lookup_registered sealing (.inr rfl) (step_recorded m (two 1)) (passes_two (.nil _) (.inl rfl) hm)
  refine MandateResolver.mem_getActiveMandates.2 ⟨MandateResolver.mem_all.2 ⟨m.id, by rw [hlookup, if_pos rfl]⟩, ?_, hactive⟩
  intro n hn hs
  obtain ⟨id, hid⟩ := MandateResolver.mem_all.1 hn
  rw [hlookup] at hid
  split at hid
  · cases hid
    rw [← hs, hsup]
  · cases hid

/-- The first validator's mandate is enforceable after it was recorded. -/
theorem recorded_authentic : ∃ m, (recorded m (two 1)).2.mandateResolver.Returns m ∧ m.id = m.mandateID sealing ∧
    ∃ pk payload, (two 1).mandateAuthorityLookup m.authority = some pk ∧ m.marshalPayloadCBOR sealing = some payload ∧
      verifyDilithium sealing pk payload m.signature = true := by
  obtain ⟨⟨a, b, c⟩, -, ha, -, -, hsup, hactive, -⟩ := rivals
  have hreturns : (recorded a (two 1)).2.mandateResolver.Returns a := .active 1 (recorded_active ha hsup hactive)
  obtain ⟨hid, -, hsigned⟩ := enforceable_authentic sealing (.inr ⟨_, _, _, rfl⟩) (run_recorded a) hreturns
  exact ⟨a, hreturns, hid, hsigned⟩

/-- The second validator's mandate leaves the first one's in force, if it does not claim to supersede it. -/
theorem rival_beside : ∃ a b, a.authority ≠ b.authority ∧ IssuedBy 2 b ∧
    a ∈ (recorded a (two 1)).2.mandateResolver.getActiveMandates 1 ∧
    a ∈ (recorded b (recorded a (two 1)).2).2.mandateResolver.getActiveMandates 1 := by
  obtain ⟨⟨a, b, c⟩, -, ha, -, hc, hsup, hactive, hzero, -, hfree, hne⟩ := rivals
  have hauthor : a.authority ≠ c.authority := by
    rw [ha.2.1, hc.2.1]
    decide +kernel
  have hin := recorded_active ha hsup hactive
  refine ⟨a, c, hauthor, hc, hin, ?_⟩
  refine (uncancelled_iff sealing (.inr ⟨_, _, _, rfl⟩) (run_recorded a) hauthor (.inr rfl) (step_recorded c _)
    (passes_two (run_recorded a) (.inr rfl) hc) hin).2 ⟨hne, fun hs => ?_⟩
  rw [← hs, hfree]

/-- The second validator cancels the first one's mandate. -/
theorem rival_cancels : ∃ e₀ τ e l e' a b timestamp, e₀.Fresh ∧ EngineRun sealing e₀ τ e ∧ a.authority ≠ b.authority ∧
    l.call = .recordMandateBody b ∧ EngineStep sealing e l e' ∧
    validateMandateAuthority sealing b e.mandateAuthorityLookup = .ok () ∧
    a ∈ e.mandateResolver.getActiveMandates timestamp ∧ a ∉ e'.mandateResolver.getActiveMandates timestamp := by
  obtain ⟨⟨a, b, c⟩, -, ha, hb, -, hsup, hactive, hzero, hclaims, -⟩ := rivals
  have hauthor : a.authority ≠ b.authority := by
    rw [ha.2.1, hb.2.1]
    decide +kernel
  have hpass := passes_two (run_recorded a) (.inr rfl) hb
  have hlookup := lookup_registered sealing (.inr rfl) (step_recorded b (recorded a (two 1)).2) hpass
  refine ⟨two 1, _, _, _, _, a, b, 1, .inr ⟨_, _, _, rfl⟩, run_recorded a, hauthor, rfl, step_recorded b _, hpass,
    recorded_active ha hsup hactive, fun hin => ?_⟩
  have hfree := (MandateResolver.mem_getActiveMandates.1 hin).2.1
  exact hzero (hfree b (MandateResolver.mem_all.2 ⟨b.id, by rw [hlookup, if_pos rfl]⟩) hclaims)

end Sample

end Gleipnir
