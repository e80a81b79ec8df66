import Gleipnir.Consensus.Anchors
import Gleipnir.Lib.Bucket
import Mathlib.Data.Set.Finite.Lemmas

/-!
# Persistence

`storage/bolt.go`, and `persist`, `loadPersisted`, `Stop` and `SetStorage` of `consensus/engine.go`. A disk keeps the values that
were saved to it; what bbolt and JSON do with them is not modelled, so a load returns what was saved. Each save is a
transaction of its own: `persist` is a list of saves, and a process that dies in it leaves the disk with a first part of the
list.

* `Host`: an engine, its disk, and the lives of the process: calls, `SetStorage`, a restart and a crash within `persist`.
* `backed_run`: in every run of a host, what the disk has of the chain and of the records, the attached engine has as well.
-/

namespace Gleipnir

open Atomic

variable (X : Prims)

/-! ## The disk -/

/-- The buckets of a `BoltStorage` that the engine uses. A block is saved under its index, highest byte first, so a cursor
reads the blocks in the order of their indices. -/
structure Disk where
  state : Option NetworkState
  pending : Option (List ProvenanceEntry)
  tree : Option SparseMerkleTree
  anchored : Hash → Option AnchorProof
  blocks : Bucket fun b : Block => b.index.toNat

/-- The buckets of `initBuckets`. -/
def Disk.empty : Disk := ⟨none, none, none, fun _ => none, .empty⟩

/-- The transactions that write. -/
inductive Save where
  | state (st : NetworkState)
  | pending (entries : List ProvenanceEntry)
  | smt (tree : SparseMerkleTree)
  | anchored (hash : Hash) (proof : AnchorProof)
  | block (block : Block)

/-- `SaveState`, `SavePending`, `SaveSMT`, `SaveAnchored` and `SaveBlock`. -/
def Disk.save (d : Disk) : Save → Disk
  | .state st => { d with state := some st }
  | .pending entries => { d with pending := some entries }
  | .smt tree => { d with tree := some tree }
  | .anchored hash proof => { d with anchored := Function.update d.anchored hash (some proof) }
  | .block block => { d with blocks := d.blocks.put block }

def Disk.saveAll (d : Disk) (saves : List Save) : Disk := saves.foldl Disk.save d

namespace Engine

/-- The records of an engine as a `range` over its map may list them. -/
structure Records (e : Engine) (records : List (Hash × AnchorProof)) : Prop where
  nodup : (records.map Prod.fst).Nodup
  listed : ∀ hash proof, (hash, proof) ∈ records ↔ e.anchored hash = some proof

/-- The transactions of `persist`, in their order. -/
def saves (e : Engine) (records : List (Hash × AnchorProof)) : List Save :=
  .state e.state :: .pending e.pending :: .smt e.st ::
    (records.map (fun r => .anchored r.1 r.2) ++ e.blocks.map .block)

/-- `loadPersisted`. What is not on the disk comes back empty, the state and the tree excepted. -/
def loadPersisted (e : Engine) (d : Disk) : Engine :=
  { e with
    state := d.state.getD e.state
    pending := d.pending.getD []
    anchored := d.anchored
    blocks := d.blocks.values
    st := d.tree.getD e.st }

/-- A new engine of the same identity and peers. -/
structure Renews (next e : Engine) : Prop where
  fresh : next.Fresh
  node : next.node = e.node
  peers : next.peers = e.peers

end Engine

/-! ## Hosts -/

/-- An engine with a disk, which is its storage or not. -/
structure Host where
  engine : Engine
  disk : Disk
  attached : Bool

/-- A new engine beside an empty disk. -/
def Host.New (h : Host) : Prop := h.engine.Fresh ∧ h.disk = .empty ∧ h.attached = false

def Call.stops : Call → Bool
  | .stop => true
  | _ => false

/-- The call makes the engine persist: it is `Stop`, or it appends a block. -/
def Host.saving (h : Host) (c : Call) (e' : Engine) : Bool :=
  h.attached && (c.stops || h.engine.blocks.length < e'.blocks.length)

/-- What happens to a host. In a crash the call has left the engine `saved`, of whose transactions `n` are made. -/
inductive HostMove where
  | call (l : Called) (records : List (Hash × AnchorProof))
  | attach
  | detach
  | restart (next : Engine)
  | crash (l : Called) (saved : Engine) (records : List (Hash × AnchorProof)) (n : Nat) (next : Engine)

inductive HostStep : Host → HostMove → Host → Prop
  /-- A call that makes the engine persist does so once it is done. -/
  | call {h : Host} {l : Called} {e' : Engine} {records : List (Hash × AnchorProof)} (hs : EngineStep X h.engine l e')
      (hr : h.saving l.call e' = true → e'.Records records) :
      HostStep h (.call l records)
        ⟨e', if h.saving l.call e' then h.disk.saveAll (e'.saves records) else h.disk, h.attached⟩
  /-- `SetStorage` with the disk. -/
  | attach (h : Host) : HostStep h .attach ⟨h.engine.loadPersisted h.disk, h.disk, true⟩
  /-- `SetStorage(nil)`. -/
  | detach (h : Host) : HostStep h .detach ⟨h.engine, h.disk, false⟩
  /-- The process ends and starts again. -/
  | restart {h : Host} {next : Engine} (hn : next.Renews h.engine) : HostStep h (.restart next) ⟨next, h.disk, false⟩
  /-- The process ends within `persist` and starts again. -/
  | crash {h : Host} {l : Called} {saved next : Engine} {records : List (Hash × AnchorProof)} {n : Nat}
      (hs : EngineStep X h.engine l saved) (hsaving : h.saving l.call saved = true) (hr : saved.Records records)
      (hn : next.Renews saved) :
      HostStep h (.crash l saved records n next) ⟨next, h.disk.saveAll ((saved.saves records).take n), false⟩

abbrev HostRun (h : Host) (τ : List (Transition Host HostMove)) (h' : Host) : Prop := Path (HostStep X) h τ h'

/-! ## What the transactions of `persist` write -/

/-- File records one after the other. -/
def fileRecords (records : List (Hash × AnchorProof)) (anchored : Hash → Option AnchorProof) : Hash → Option AnchorProof :=
  records.foldl (fun a r => Function.update a r.1 (some r.2)) anchored

section Filed

variable {records : List (Hash × AnchorProof)} {anchored : Hash → Option AnchorProof} {hash : Hash} {proof : AnchorProof}

/-- A record that is found was filed, or was there before. -/
theorem mem_of_fileRecords (h : fileRecords records anchored hash = some proof) :
    (hash, proof) ∈ records ∨ anchored hash = some proof := by
  induction records generalizing anchored with
  | nil => exact .inr h
  | cons r records ih =>
    rcases ih h with hmem | hfiled
    · exact .inl (List.mem_cons_of_mem _ hmem)
    · change Function.update anchored r.1 (some r.2) hash = some proof at hfiled
      by_cases heq : hash = r.1
      · subst heq
        rw [Function.update_self] at hfiled
        cases hfiled
        exact .inl List.mem_cons_self
      · rw [Function.update_of_ne heq] at hfiled
        exact .inr hfiled

theorem fileRecords_of_not_mem (h : hash ∉ records.map Prod.fst) : fileRecords records anchored hash = anchored hash := by
  induction records generalizing anchored with
  | nil => rfl
  | cons r records ih =>
    rw [List.map_cons, List.mem_cons, not_or] at h
    exact (ih h.2).trans (Function.update_of_ne h.1 _ _)

theorem fileRecords_of_mem (hnodup : (records.map Prod.fst).Nodup) (h : (hash, proof) ∈ records) :
    fileRecords records anchored hash = some proof := by
  induction records generalizing anchored with
  | nil => cases h
  | cons r records ih =>
    rw [List.map_cons, List.nodup_cons] at hnodup
    rcases List.mem_cons.1 h with rfl | hmem
    · exact (fileRecords_of_not_mem hnodup.1).trans (Function.update_self _ _ _)
    · exact ih hnodup.2 hmem

/-- The records of an engine, filed over some of their hashes, are those of the engine. -/
theorem fileRecords_eq {e : Engine} (hr : e.Records records) (hsub : ∀ hash, anchored hash ≠ none → e.anchored hash ≠ none) :
    fileRecords records anchored = e.anchored := by
  funext hash
  cases he : e.anchored hash with
  | some proof => exact fileRecords_of_mem hr.nodup ((hr.listed hash proof).2 he)
  | none =>
    have hnot : hash ∉ records.map Prod.fst := by
      intro hmem
      obtain ⟨⟨hash', proof⟩, hr', rfl⟩ := List.mem_map.1 hmem
      rw [(hr.listed hash' proof).1 hr'] at he
      cases he
    rw [fileRecords_of_not_mem hnot]
    by_contra hsome
    exact hsub hash hsome he

end Filed

namespace Disk

theorem saveAll_append (d : Disk) (ss ss' : List Save) : d.saveAll (ss ++ ss') = (d.saveAll ss).saveAll ss' :=
  List.foldl_append

theorem saveAll_records (d : Disk) (records : List (Hash × AnchorProof)) :
    d.saveAll (records.map fun r => .anchored r.1 r.2) = { d with anchored := fileRecords records d.anchored } := by
  induction records generalizing d with
  | nil => rfl
  | cons r records ih => exact ih _

theorem saveAll_blocks (d : Disk) (blocks : List Block) :
    d.saveAll (blocks.map .block) = { d with blocks := d.blocks.putAll blocks } := by
  induction blocks generalizing d with
  | nil => rfl
  | cons b blocks ih => exact ih _

/-- The first two transactions of `persist` leave the tree, the records and the blocks alone. -/
theorem saveAll_take_early (d : Disk) (e : Engine) (records : List (Hash × AnchorProof)) {n : Nat} (hn : n < 3) :
    ∃ state pending, d.saveAll ((e.saves records).take n) = { d with state := state, pending := pending } := by
  rcases n with _ | _ | _ | n
  · exact ⟨_, _, rfl⟩
  · exact ⟨_, _, rfl⟩
  · exact ⟨_, _, rfl⟩
  · omega

/-- The disk after the third transaction of `persist` and `k` further ones: the records come first, then the blocks. -/
theorem saveAll_take (d : Disk) (e : Engine) (records : List (Hash × AnchorProof)) (k : Nat) :
    d.saveAll ((e.saves records).take (k + 3)) =
      { state := some e.state
        pending := some e.pending
        tree := some e.st
        anchored := fileRecords (records.take k) d.anchored
        blocks := d.blocks.putAll (e.blocks.take (k - records.length)) } := by
  have htake : (e.saves records).take (k + 3) = [.state e.state, .pending e.pending, .smt e.st] ++
      ((records.take k).map (fun r => .anchored r.1 r.2) ++ (e.blocks.take (k - records.length)).map .block) := by
    simp [Engine.saves, List.take_append, List.map_take]
  rw [htake, saveAll_append, saveAll_append, saveAll_records, saveAll_blocks]
  rfl

/-- The disk after `persist`. -/
theorem saveAll_saves (d : Disk) (e : Engine) (records : List (Hash × AnchorProof)) :
    d.saveAll (e.saves records) =
      { state := some e.state
        pending := some e.pending
        tree := some e.st
        anchored := fileRecords records d.anchored
        blocks := d.blocks.putAll e.blocks } := by
  have h := d.saveAll_take e records (records.length + e.blocks.length)
  rwa [List.take_of_length_le (by simp [Engine.saves]), List.take_of_length_le (by omega),
    List.take_of_length_le (by omega)] at h

end Disk

/-! ## Runs of a host -/

section Runs

variable {X}

variable {e e' : Engine} {l : Called} {h h' : Host}

/-- A step of the engine extends the chain and the records, by finitely many. -/
theorem step_extends (h : EngineStep X e l e') :
    e.blocks ⊆ e'.blocks ∧ (∀ hash, e.anchored hash ≠ none → e'.anchored hash ≠ none) ∧
      ∃ hashes : List Hash, ∀ hash, e'.anchored hash ≠ none → e.anchored hash ≠ none ∨ hash ∈ hashes := by
  rcases step_records h with ⟨hblocks, hanchored⟩ | ⟨-, ⟨cm⟩⟩
  · rw [hblocks, hanchored]
    exact ⟨List.Subset.refl _, fun _ hne => hne, [], fun _ hne => .inl hne⟩
  · rw [cm.blocks_eq]
    refine ⟨List.subset_append_left _ _, fun hash hne => ?_, cm.final.hashes, fun hash hne => ?_⟩
    · by_cases hmem : hash ∈ cm.final.hashes
      · obtain ⟨pe, -, -, hrecord⟩ := (cm.anchored hash).2 hmem
        rw [Engine.lookupHash] at hrecord
        rw [hrecord]
        exact Option.some_ne_none _
      · have hsame := (cm.anchored hash).1 hmem
        rw [Engine.lookupHash, Engine.lookupHash] at hsame
        rwa [hsame]
    · by_cases hmem : hash ∈ cm.final.hashes
      · exact .inr hmem
      · have hsame := (cm.anchored hash).1 hmem
        rw [Engine.lookupHash, Engine.lookupHash] at hsame
        exact .inl (hsame ▸ hne)

/-- The engine and the disk have finitely many records, and an attached engine has what is on the disk. -/
structure Backed (h : Host) : Prop where
  engine : {hash | h.engine.anchored hash ≠ none}.Finite
  disk : {hash | h.disk.anchored hash ≠ none}.Finite
  blocks : h.attached = true → h.disk.blocks.values ⊆ h.engine.blocks
  records : h.attached = true → ∀ hash, h.disk.anchored hash ≠ none → h.engine.anchored hash ≠ none

theorem finite_step (h : EngineStep X e l e') (hfin : {hash | e.anchored hash ≠ none}.Finite) :
    {hash | e'.anchored hash ≠ none}.Finite := by
  obtain ⟨-, -, hashes, hnew⟩ := step_extends h
  exact (hfin.union hashes.finite_toSet).subset fun hash hne => hnew hash hne

theorem finite_fileRecords {records : List (Hash × AnchorProof)} {anchored : Hash → Option AnchorProof}
    (hfin : {hash | anchored hash ≠ none}.Finite) : {hash | fileRecords records anchored hash ≠ none}.Finite := by
  refine (hfin.union (records.map Prod.fst).finite_toSet).subset fun hash hne => ?_
  obtain ⟨proof, hproof⟩ := Option.ne_none_iff_exists'.1 hne
  rcases mem_of_fileRecords hproof with hmem | hbefore
  · exact .inr (List.mem_map.2 ⟨_, hmem, rfl⟩)
  · refine .inl fun hnone => ?_
    rw [hbefore] at hnone
    cases hnone

theorem finite_fresh (h : e.Fresh) : {hash | e.anchored hash ≠ none}.Finite := by
  simp [h.blank.anchored]

theorem backed_detached (hatt : h.attached = false) (he : {hash | h.engine.anchored hash ≠ none}.Finite)
    (hd : {hash | h.disk.anchored hash ≠ none}.Finite) : Backed h := by
  refine ⟨he, hd, ?_, ?_⟩
  · simp [hatt]
  · simp [hatt]

theorem backed_new (hnew : h.New) : Backed h := by
  obtain ⟨hfresh, hdisk, hattached⟩ := hnew
  exact backed_detached hattached (finite_fresh hfresh) (by simp [hdisk, Disk.empty])

/-- The records on a disk after a first part of `persist`. -/
theorem finite_saveAll_take {d : Disk} (hfin : {hash | d.anchored hash ≠ none}.Finite) (e : Engine)
    (records : List (Hash × AnchorProof)) (n : Nat) :
    {hash | (d.saveAll ((e.saves records).take n)).anchored hash ≠ none}.Finite := by
  by_cases hn : n < 3
  · obtain ⟨state, pending, hdisk⟩ := d.saveAll_take_early e records hn
    rw [hdisk]
    exact hfin
  · obtain ⟨k, rfl⟩ := Nat.exists_eq_add_of_le' (not_lt.1 hn)
    rw [Disk.saveAll_take]
    exact finite_fileRecords hfin

theorem backed_step {m : HostMove} (hstep : HostStep X h m h') (hb : Backed h) : Backed h' := by
  cases hstep with
  | @call l e' records hs hr =>
    obtain ⟨hblocks, hrecords, -⟩ := step_extends hs
    by_cases hsaving : h.saving l.call e' = true
    · rw [if_pos hsaving, Disk.saveAll_saves]
      have hatt : h.attached = true := (Bool.and_eq_true_iff.1 hsaving).1
      refine ⟨finite_step hs hb.engine, finite_fileRecords hb.disk, fun _ b hmem => ?_, fun _ hash hne => ?_⟩
      · rcases Bucket.mem_of_mem_putAll hmem with hdisk | hown
        · exact hblocks (hb.blocks hatt hdisk)
        · exact hown
      · rwa [fileRecords_eq (hr hsaving) fun hash hne => hrecords hash (hb.records hatt hash hne)] at hne
    · rw [if_neg hsaving]
      exact ⟨finite_step hs hb.engine, hb.disk, fun hatt => List.Subset.trans (hb.blocks hatt) hblocks,
        fun hatt hash hne => hrecords hash (hb.records hatt hash hne)⟩
  | attach => exact ⟨hb.disk, hb.disk, fun _ => List.Subset.refl _, fun _ _ hne => hne⟩
  | detach => exact backed_detached rfl hb.engine hb.disk
  | restart hn => exact backed_detached rfl (finite_fresh hn.fresh) hb.disk
  | crash hs hsaving hr hn => exact backed_detached rfl (finite_fresh hn.fresh) (finite_saveAll_take hb.disk _ _ _)

/-- **The disk is behind the engine**, in every run of a host. -/
theorem backed_run {τ : List (Transition Host HostMove)} (hnew : h.New) (hrun : HostRun X h τ h') : Backed h' :=
  hrun.preserves (fun _ _ _ hstep hb => backed_step hstep hb) (backed_new hnew)

/-- The records of an engine can be listed. -/
theorem exists_records (hfin : {hash | e.anchored hash ≠ none}.Finite) : ∃ records, e.Records records := by
  classical
  refine ⟨hfin.toFinset.toList.filterMap fun hash => (e.anchored hash).map fun proof => (hash, proof), ?_, ?_⟩
  · have hfst : (hfin.toFinset.toList.filterMap fun hash => (e.anchored hash).map fun proof => (hash, proof)).map Prod.fst
        = hfin.toFinset.toList.filter fun hash => (e.anchored hash).isSome := by
      rw [List.map_filterMap, ← List.filterMap_eq_filter]
      refine List.filterMap_congr fun hash _ => ?_
      cases he : e.anchored hash <;> simp [he, Option.guard]
    rw [hfst]
    exact (Finset.nodup_toList _).filter _
  · intro hash proof
    simp only [List.mem_filterMap, Finset.mem_toList, Set.Finite.mem_toFinset, Set.mem_ofPred_eq, Option.map_eq_some_iff,
      Prod.mk.injEq]
    constructor
    · rintro ⟨hash', -, proof', hproof, rfl, rfl⟩
      exact hproof
    · intro hproof
      exact ⟨hash, by rw [hproof]; exact Option.some_ne_none _, proof, hproof, rfl, rfl⟩

end Runs

namespace Sample

/-- A host with the given engine, whose disk is empty. -/
def attachedTo (e : Engine) : Host := ⟨e, .empty, true⟩

theorem attach_new {e : Engine} (hload : e.loadPersisted .empty = e) :
    HostStep prims ⟨e, .empty, false⟩ .attach (attachedTo e) := by
  have h := HostStep.attach (X := prims) ⟨e, .empty, false⟩
  rwa [hload] at h

/-- A call that saves nothing. -/
theorem quiet_call {h : Host} {l : Called} {e : Engine} (hstep : EngineStep prims h.engine l e)
    (hquiet : h.saving l.call e = false) : HostStep prims h (.call l []) ⟨e, h.disk, h.attached⟩ := by
  have h' : HostStep prims h (.call l []) ⟨e, if h.saving l.call e then _ else h.disk, h.attached⟩ :=
    .call hstep fun hs => absurd hs (by rw [hquiet]; exact Bool.false_ne_true)
  rwa [hquiet] at h'

/-- A single node that has queued an entry. -/
def queueing : Engine × Trace × MemoryBus := serveOn MemoryBus.new ((Call.enqueue (entry 9)).prog prims (Engine.new (node 1)))

end Sample

end Gleipnir
