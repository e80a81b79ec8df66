import Gleipnir.Storage.Bolt

/-!
# Crashes within `persist`

`persist` saves the tree before the records and the records before the blocks, each in a transaction of its own. A process that
dies after the tree of a new block is saved and before the block is leaves a disk whose tree, and perhaps whose records, are
ahead of its chain (`Torn`). `crash_consistent_iff` says that these are the only crashes that an engine notices when it loads
the disk, as long as what is saved has the tree of its last block and the blocks at the positions of their indices.
-/

namespace Gleipnir

open Atomic

variable {X : Prims}

/-- The tree of the engine has the root of its last block, and every record is of a block that it has. -/
structure CrashConsistent (e : Engine) : Prop where
  rooted : ∀ b, e.blocks.getLast? = some b → e.getStateRoot = b.stateRoot
  recorded : ∀ hash proof, e.anchored hash = some proof → (e.getBlock proof.blockIndex).isSome = true

/-- What `persist` is given to save: the blocks are where their indices say, and the tree is that of the last one. -/
structure Engine.Storable (e : Engine) : Prop where
  indexed : ∀ (i : Nat) (b : Block), e.blocks[i]? = some b → b.index.toNat = i
  rooted : ∀ b, e.blocks.getLast? = some b → e.getStateRoot = b.stateRoot

/-- After `n` transactions of `persist` the tree is saved and a new block is not, and it shows: the last block on the disk has
another root, or a record of the new block is saved. -/
structure Torn (d : Disk) (e : Engine) (records : List (Hash × AnchorProof)) (n : Nat) : Prop where
  treeSaved : 3 ≤ n
  blockUnsaved : n < 3 + records.length + e.blocks.length
  appended : d.blocks.values.length < e.blocks.length
  visible : (∃ b, d.blocks.values.getLast? = some b ∧ e.getStateRoot ≠ b.stateRoot) ∨
    ∃ r ∈ records.take (n - 3), r.2.blockIndex.toNat = d.blocks.values.length

/-- The engine that is saved is storable, and a crash within `persist` does not tear it. -/
def Whole (x : Transition Host HostMove) : Prop :=
  match x.label with
  | .call l _ => x.pre.saving l.call x.post.engine = true → x.post.engine.Storable
  | .crash _ saved records n _ => saved.Storable ∧ ¬ Torn x.pre.disk saved records n
  | .attach | .detach | .restart _ => True

/-! ## Sound disks -/

/-- The tree on the disk is that of the last block, and the records are of its blocks. -/
structure Disk.Sound (d : Disk) : Prop where
  rooted : ∀ b, d.blocks.values.getLast? = some b → ∃ t, d.tree = some t ∧ t.root.toList = b.stateRoot
  recorded : ∀ hash proof, d.anchored hash = some proof → proof.blockIndex.toNat < d.blocks.values.length

variable {e e' : Engine} {l : Called} {h h' : Host}

theorem isSome_getBlock {index : UInt64} : (e.getBlock index).isSome = true ↔ index.toNat < e.blocks.length := by
  simp [Engine.getBlock]

/-- An engine that loads a sound disk is consistent. -/
theorem consistent_of_sound {d : Disk} (h : d.Sound) (e : Engine) : CrashConsistent (e.loadPersisted d) := by
  refine ⟨fun b hb => ?_, fun hash proof hproof => isSome_getBlock.2 (h.recorded hash proof hproof)⟩
  obtain ⟨t, htree, hroot⟩ := h.rooted b hb
  rw [Engine.getStateRoot, Engine.loadPersisted, htree]
  exact hroot

/-- Once there is a tree on the disk, only a sound disk gives a consistent engine. -/
theorem sound_of_consistent {d : Disk} {t : SparseMerkleTree} (htree : d.tree = some t)
    (h : CrashConsistent (e.loadPersisted d)) : d.Sound := by
  refine ⟨fun b hb => ⟨t, htree, ?_⟩, fun hash proof hproof => isSome_getBlock.1 (h.recorded hash proof hproof)⟩
  have hroot := h.rooted b hb
  rwa [Engine.getStateRoot, Engine.loadPersisted, htree] at hroot

/-- The disk is sound, and an attached engine has the blocks of the disk and no record beyond them. -/
structure Host.Sound (h : Host) : Prop where
  disk : h.disk.Sound
  blocks : h.attached = true → h.engine.blocks = h.disk.blocks.values
  recorded : h.attached = true → ∀ hash proof, h.engine.anchored hash = some proof →
    proof.blockIndex.toNat < h.engine.blocks.length

/-! ## One step of the engine -/

/-- A step leaves the chain and the records alone, or appends a block, and the new records are of that block. -/
theorem step_recorded (h : EngineStep X e l e')
    (hrec : ∀ hash proof, e.anchored hash = some proof → proof.blockIndex.toNat < e.blocks.length) :
    (e'.blocks = e.blocks ∧ e'.anchored = e.anchored) ∨ ∃ b, e'.blocks = e.blocks ++ [b] ∧ ∀ hash proof,
      e'.anchored hash = some proof →
        proof.blockIndex.toNat < e.blocks.length ∨ proof.blockIndex = UInt64.ofNat e.blocks.length := by
  refine (step_records h).imp_right ?_
  rintro ⟨-, ⟨cm⟩⟩
  refine ⟨cm.final, cm.blocks_eq, fun hash proof hproof => ?_⟩
  by_cases hmem : hash ∈ cm.final.hashes
  · obtain ⟨pe, -, -, hnew⟩ := (cm.anchored hash).2 hmem
    right
    cases Option.some.inj (hproof.symm.trans hnew)
    simp [Engine.anchorProof, cm.blocks_eq]
  · exact .inl (hrec hash proof (((cm.anchored hash).1 hmem).symm.trans hproof))

theorem Engine.Storable.ascending (h : e.Storable) : Ascending (fun b : Block => b.index.toNat) e.blocks := by
  refine List.pairwise_iff_getElem.2 fun i j hi hj hij => ?_
  have hi' := h.indexed i _ (List.getElem?_eq_getElem hi)
  have hj' := h.indexed j _ (List.getElem?_eq_getElem hj)
  simpa only [hi', hj'] using hij

/-- What an attached engine of a sound host has when it persists. -/
structure Saving (d : Disk) (e : Engine) : Prop where
  storable : e.Storable
  blocks : e.blocks = d.blocks.values ∨ ∃ b, e.blocks = d.blocks.values ++ [b]
  /-- A record is of a block of the disk or of the new one. -/
  recorded : ∀ hash proof, e.anchored hash = some proof → proof.blockIndex.toNat < d.blocks.values.length ∨
    (d.blocks.values.length < e.blocks.length ∧ proof.blockIndex.toNat = d.blocks.values.length)

theorem saving_of_step (hs : h.Sound) (hatt : h.attached = true) (hstep : EngineStep X h.engine l e') (hst : e'.Storable) :
    Saving h.disk e' := by
  have hblocks := hs.blocks hatt
  rcases step_recorded hstep (hs.recorded hatt) with ⟨hsame, hanchored⟩ | ⟨b, happ, hrec⟩
  · refine ⟨hst, .inl (hsame.trans hblocks), fun hash proof hproof => .inl ?_⟩
    rw [← hblocks]
    exact hs.recorded hatt hash proof (hanchored ▸ hproof)
  · rw [hblocks] at happ hrec
    refine ⟨hst, .inr ⟨b, happ⟩, fun hash proof hproof => (hrec hash proof hproof).imp_right fun heq => ?_⟩
    -- the position of the new block fits into its index
    have hindex : b.index.toNat = h.disk.blocks.values.length := hst.indexed _ b (by simp [happ])
    refine ⟨by simp [happ], ?_⟩
    rw [heq, UInt64.toNat_ofNat_of_lt']
    exact hindex ▸ b.index.toNat_lt

/-! ## A crash -/

namespace Saving

variable {d : Disk} {e : Engine} (hs : Saving d e)
include hs

theorem length_le : d.blocks.values.length ≤ e.blocks.length := by
  rcases hs.blocks with heq | ⟨b, heq⟩
  · rw [heq]
  · simp [heq]

/-- Saving a first part of the blocks changes the disk when it includes a new one. -/
theorem values_putAll_take (m : Nat) : (d.blocks.putAll (e.blocks.take m)).values =
    if d.blocks.values.length < e.blocks.length ∧ m < e.blocks.length then d.blocks.values else e.blocks := by
  rcases hs.blocks with heq | ⟨b, heq⟩
  · rw [if_neg (by simp [heq]), Bucket.putAll_of_mem fun x hx => heq ▸ List.mem_of_mem_take hx, heq]
  · by_cases hm : m < e.blocks.length
    · rw [if_pos ⟨by simp [heq], hm⟩]
      rw [heq, List.length_append, List.length_singleton] at hm
      rw [Bucket.putAll_of_mem]
      intro x hx
      rw [heq, List.take_append_of_le_length (by omega)] at hx
      exact List.mem_of_mem_take hx
    · rw [if_neg (fun h => hm h.2), List.take_of_length_le (not_lt.1 hm)]
      refine (Bucket.values_putAll_iff fun x hx => ?_).2 hs.storable.ascending
      rw [heq]
      exact List.mem_append_left _ hx

variable {records : List (Hash × AnchorProof)}

/-- A disk that has the tree and some of the records, and not the new block. -/
theorem sound_between (hr : e.Records records) (hd : d.Sound) {d' : Disk} (k : Nat) (htree : d'.tree = some e.st)
    (hanchored : d'.anchored = fileRecords (records.take k) d.anchored) (hblocks : d'.blocks.values = d.blocks.values) :
    d'.Sound ↔
      (∀ b, d.blocks.values.getLast? = some b → e.getStateRoot = b.stateRoot) ∧
        ∀ r ∈ records.take k, r.2.blockIndex.toNat ≠ d.blocks.values.length := by
  have hnodup : ((records.take k).map Prod.fst).Nodup := hr.nodup.sublist ((List.take_sublist k records).map _)
  constructor
  · intro h
    refine ⟨fun b hb => ?_, fun r hmem => ?_⟩
    · obtain ⟨t, ht, hroot⟩ := h.rooted b (hblocks ▸ hb)
      rw [htree] at ht
      cases ht
      exact hroot
    · have hfiled : d'.anchored r.1 = some r.2 := by
        rw [hanchored]
        exact fileRecords_of_mem hnodup hmem
      exact hblocks ▸ (h.recorded r.1 r.2 hfiled).ne
  · rintro ⟨hroot, hnone⟩
    refine ⟨fun b hb => ⟨e.st, htree, hroot b (hblocks ▸ hb)⟩, fun hash proof hproof => ?_⟩
    rw [hblocks]
    rw [hanchored] at hproof
    rcases mem_of_fileRecords hproof with hmem | hold
    · have hlisted := (hr.listed hash proof).1 (List.mem_of_mem_take hmem)
      exact (hs.recorded hash proof hlisted).resolve_right fun hnew => hnone _ hmem hnew.2
    · exact hd.recorded hash proof hold

/-- A disk that has the tree, some of the records and all blocks. -/
theorem sound_after (hr : e.Records records) (hd : d.Sound) {d' : Disk} (k : Nat) (htree : d'.tree = some e.st)
    (hanchored : d'.anchored = fileRecords (records.take k) d.anchored) (hblocks : d'.blocks.values = e.blocks) : d'.Sound := by
  have hle := hs.length_le
  refine ⟨fun b hb => ⟨e.st, htree, hs.storable.rooted b (hblocks ▸ hb)⟩, fun hash proof hproof => ?_⟩
  rw [hblocks]
  rw [hanchored] at hproof
  rcases mem_of_fileRecords hproof with hmem | hold
  · rcases hs.recorded hash proof ((hr.listed hash proof).1 (List.mem_of_mem_take hmem)) with hlt | ⟨hlt, heq⟩
    · omega
    · omega
  · exact (hd.recorded hash proof hold).trans_le hle

/-- The disk is sound after any number of transactions that does not tear it, and after no other. -/
theorem sound_crash_iff (hr : e.Records records) (hd : d.Sound) (n : Nat) :
    (d.saveAll ((e.saves records).take n)).Sound ↔ ¬ Torn d e records n := by
  by_cases hn : n < 3
  · obtain ⟨state, pending, hdisk⟩ := d.saveAll_take_early e records hn
    rw [hdisk]
    refine ⟨fun _ ht => ?_, fun _ => ⟨hd.rooted, hd.recorded⟩⟩
    have hsaved := ht.treeSaved
    omega
  obtain ⟨k, rfl⟩ := Nat.exists_eq_add_of_le' (not_lt.1 hn)
  have hvalues := hs.values_putAll_take (k - records.length)
  by_cases hwindow : d.blocks.values.length < e.blocks.length ∧ k - records.length < e.blocks.length
  · rw [if_pos hwindow] at hvalues
    rw [d.saveAll_take, hs.sound_between hr hd k rfl rfl hvalues]
    constructor
    · rintro ⟨hroot, hnone⟩ ht
      rcases ht.visible with ⟨b, hb, hne⟩ | ⟨r, hmem, heq⟩
      · exact hne (hroot b hb)
      · exact hnone r hmem heq
    · intro ht
      have hvisible : ∀ hv, False := fun hv => ht ⟨by omega, by omega, hwindow.1, hv⟩
      refine ⟨fun b hb => ?_, fun r hmem heq => hvisible (.inr ⟨r, hmem, heq⟩)⟩
      by_contra hne
      exact hvisible (.inl ⟨b, hb, hne⟩)
  · rw [if_neg hwindow] at hvalues
    rw [d.saveAll_take]
    refine ⟨fun _ ht => ?_, fun _ => hs.sound_after hr hd k rfl rfl hvalues⟩
    have hunsaved := ht.blockUnsaved
    have happ := ht.appended
    exact hwindow ⟨happ, by omega⟩

/-- The disk after the whole of `persist`. -/
theorem sound_saved (hr : e.Records records) (hd : d.Sound) :
    (d.saveAll (e.saves records)).Sound ∧ (d.saveAll (e.saves records)).blocks.values = e.blocks := by
  have hvalues := hs.values_putAll_take e.blocks.length
  rw [if_neg (fun h => lt_irrefl _ h.2), List.take_length] at hvalues
  rw [d.saveAll_saves]
  refine ⟨hs.sound_after hr hd records.length rfl ?_ hvalues, hvalues⟩
  rw [List.take_length]

end Saving

/-! ## Runs -/

theorem sound_detached (hatt : h.attached = false) (hd : h.disk.Sound) : h.Sound := by
  refine ⟨hd, ?_, ?_⟩
  · simp [hatt]
  · simp [hatt]

theorem sound_of_new (hnew : h.New) : h.Sound := by
  obtain ⟨-, hdisk, hatt⟩ := hnew
  refine sound_detached hatt ?_
  rw [hdisk]
  refine ⟨fun b hb => ?_, fun hash proof hproof => ?_⟩
  · cases hb
  · cases hproof

/-- Without a new block an attached engine is not saved, `Stop` apart. -/
theorem blocks_of_not_saving (hatt : h.attached = true) (hstep : EngineStep X h.engine l e')
    (hsaving : ¬ h.saving l.call e' = true)
    (hrec : ∀ hash proof, h.engine.anchored hash = some proof → proof.blockIndex.toNat < h.engine.blocks.length) :
    e'.blocks = h.engine.blocks ∧ e'.anchored = h.engine.anchored := by
  refine (step_recorded hstep hrec).resolve_right ?_
  rintro ⟨b, happ, -⟩
  have hlt : h.engine.blocks.length < e'.blocks.length := by simp [happ]
  refine hsaving ?_
  rw [Host.saving, hatt, decide_eq_true hlt, Bool.or_true, Bool.true_and]

theorem sound_step {m : HostMove} (hw : Whole ⟨h, m, h'⟩) (hstep : HostStep X h m h') (hs : h.Sound) : h'.Sound := by
  cases hstep with
  | @call l e' records hcall hr =>
    have hw' : h.saving l.call e' = true → e'.Storable := hw
    by_cases hsaving : h.saving l.call e' = true
    · have hatt : h.attached = true := (Bool.and_eq_true_iff.1 hsaving).1
      have hsave := saving_of_step hs hatt hcall (hw' hsaving)
      obtain ⟨hdisk, hblocks⟩ := hsave.sound_saved (hr hsaving) hs.disk
      rw [if_pos hsaving]
      refine ⟨hdisk, fun _ => hblocks.symm, fun _ hash proof hproof => ?_⟩
      have hle := hsave.length_le
      change proof.blockIndex.toNat < e'.blocks.length
      rcases hsave.recorded hash proof hproof with hlt | ⟨hlt, heq⟩
      · omega
      · omega
    · rw [if_neg hsaving]
      have hquiet : h.attached = true → e'.blocks = h.engine.blocks ∧ e'.anchored = h.engine.anchored := fun hatt =>
        blocks_of_not_saving hatt hcall hsaving (hs.recorded hatt)
      refine ⟨hs.disk, fun hatt => (hquiet hatt).1.trans (hs.blocks hatt), fun hatt hash proof hproof => ?_⟩
      change proof.blockIndex.toNat < e'.blocks.length
      rw [(hquiet hatt).1]
      exact hs.recorded hatt hash proof ((hquiet hatt).2 ▸ hproof)
  | attach => exact ⟨hs.disk, fun _ => rfl, fun _ => hs.disk.recorded⟩
  | detach => exact sound_detached rfl hs.disk
  | restart hn => exact sound_detached rfl hs.disk
  | @crash l saved next records n hcall hsaving hr hn =>
    obtain ⟨hst, hnot⟩ : saved.Storable ∧ ¬ Torn h.disk saved records n := hw
    have hatt : h.attached = true := (Bool.and_eq_true_iff.1 hsaving).1
    exact sound_detached rfl (((saving_of_step hs hatt hcall hst).sound_crash_iff hr hs.disk n).2 hnot)

/-- A host whose saves are whole has a sound disk. -/
theorem sound_hostRun {τ : List (Transition Host HostMove)} (hnew : h.New) (hrun : HostRun X h τ h') (hwhole : ∀ x ∈ τ, Whole x) :
    h'.Sound :=
  Path.invariant (C := Whole) (I := Host.Sound) (fun _ _ _ hw hstep hs => sound_step hw hstep hs) hrun hwhole (sound_of_new hnew)

/-- **Crashes.** In every run of a host in which the engines that were saved were storable and no crash tore them: when the
process dies in the next `persist` of a storable engine, the engine that loads the disk is consistent exactly if this crash
does not tear it either. -/
theorem crash_consistent_iff {h₀ h h' : Host} {τ : List (Transition Host HostMove)} (hnew : h₀.New) (hrun : HostRun X h₀ τ h)
    (hwhole : ∀ x ∈ τ, Whole x) {l : Called} {saved next : Engine} {records : List (Hash × AnchorProof)} {n : Nat}
    (hcrash : HostStep X h (.crash l saved records n next) h') (hst : saved.Storable) :
    CrashConsistent (h'.engine.loadPersisted h'.disk) ↔ ¬ Torn h.disk saved records n := by
  have hs := sound_hostRun hnew hrun hwhole
  cases hcrash with
  | crash hcall hsaving hr hn =>
    have hatt : h.attached = true := (Bool.and_eq_true_iff.1 hsaving).1
    have hiff := (saving_of_step hs hatt hcall hst).sound_crash_iff hr hs.disk n
    rw [← hiff]
    by_cases hearly : n < 3
    · -- nothing that is compared has been saved
      have hsound := hiff.2 fun ht => absurd ht.treeSaved (not_le.2 hearly)
      exact iff_of_true (consistent_of_sound hsound _) hsound
    · obtain ⟨k, rfl⟩ := Nat.exists_eq_add_of_le' (not_lt.1 hearly)
      refine ⟨fun hc => sound_of_consistent (t := saved.st) ?_ hc, fun hsound => consistent_of_sound hsound _⟩
      rw [Disk.saveAll_take]

namespace Sample

/-- A further call on the same bus. -/
def serveNext (c : Call) (x : Engine × Trace × MemoryBus) : Engine × Trace × MemoryBus := serveOn x.2.2 (c.prog prims x.1)

theorem step_serveNext (c : Call) (x : Engine × Trace × MemoryBus) :
    EngineStep prims x.1 ⟨c, (serveNext c x).2.1⟩ (serveNext c x).1 := step_serveOn c x.1 x.2.2

/-- A single node commits a block, queues another entry, and commits a second block. -/
def firstCommit : Engine × Trace × MemoryBus := serveNext .runCycle queueing

def queueingAgain : Engine × Trace × MemoryBus := serveNext (.enqueue (entry 10)) firstCommit

def secondCommit : Engine × Trace × MemoryBus := serveNext .runCycle queueingAgain

/-- The indices of a chain, the root in its last block, and that of the tree. -/
def chainOutline (e : Engine) : List Nat × Option Bytes × Bytes :=
  (e.blocks.map (·.index.toNat), e.blocks.getLast?.map (·.stateRoot), e.getStateRoot)

theorem length_of_outline {e : Engine} {is : List Nat} (h : (chainOutline e).1 = is) : e.blocks.length = is.length := by
  rw [← h, chainOutline, List.length_map]

/-- Both blocks have the roots of their trees, which differ. -/
def outlines : Computed
    (chainOutline queueing.1, chainOutline firstCommit.1, chainOutline queueingAgain.1, chainOutline secondCommit.1) fun x =>
    x.1.1 = [] ∧ x.2.1 = ([0], some x.2.1.2.2, x.2.1.2.2) ∧ x.2.2.1.1 = [0] ∧
      x.2.2.2 = ([0, 1], some x.2.2.2.2.2, x.2.2.2.2.2) ∧ x.2.1.2.2 ≠ x.2.2.2.2.2 :=
  computed _ (by decide +kernel)

theorem outlines_eq : ∃ root root', root ≠ root' ∧ (chainOutline queueing.1).1 = [] ∧
    chainOutline firstCommit.1 = (List.range 1, some root, root) ∧ (chainOutline queueingAgain.1).1 = [0] ∧
    chainOutline secondCommit.1 = (List.range 2, some root', root') := by
  obtain ⟨⟨q, f, a, s⟩, hx, hnone, hfirst, hagain, hsecond, hne⟩ := outlines
  simp only [Prod.mk.injEq] at hx
  obtain ⟨rfl, hf, rfl, hs⟩ := hx
  rw [← hf, ← hs]
  exact ⟨f.2.2, s.2.2, hne, hnone, hfirst, hagain, hsecond⟩

theorem blocks_lengths : queueing.1.blocks.length = 0 ∧ firstCommit.1.blocks.length = 1 ∧
    queueingAgain.1.blocks.length = 1 ∧ secondCommit.1.blocks.length = 2 := by
  obtain ⟨_, _, -, hnone, hfirst, hagain, hsecond⟩ := outlines_eq
  exact ⟨length_of_outline hnone, length_of_outline (congrArg Prod.fst hfirst), length_of_outline hagain,
    length_of_outline (congrArg Prod.fst hsecond)⟩

theorem roots_of_outline {e : Engine} {is : List Nat} {root root' : Bytes} (h : chainOutline e = (is, some root, root')) :
    (∃ b, e.blocks.getLast? = some b ∧ b.stateRoot = root) ∧ e.getStateRoot = root' := by
  simp only [chainOutline, Prod.mk.injEq, Option.map_eq_some_iff] at h
  exact h.2

/-- An engine with its blocks at their indices and the root of the last one. -/
theorem storable_of_outline {e : Engine} {n : Nat} {root : Bytes} (h : chainOutline e = (List.range n, some root, root)) :
    e.Storable := by
  obtain ⟨⟨b', hlast, hb'⟩, hroot⟩ := roots_of_outline h
  refine ⟨fun i b hb => ?_, fun b hb => ?_⟩
  · have hi := congrArg (·.1[i]?) h
    simp only [chainOutline, List.getElem?_map, hb, Option.map_some] at hi
    obtain ⟨hlt, hget⟩ := List.getElem?_eq_some_iff.1 hi.symm
    rw [← hget, List.getElem_range]
  · obtain rfl := Option.some.inj (hb.symm.trans hlast)
    exact hroot.trans hb'.symm

theorem storable_commits : firstCommit.1.Storable ∧ secondCommit.1.Storable := by
  obtain ⟨_, _, -, -, hfirst, -, hsecond⟩ := outlines_eq
  exact ⟨storable_of_outline hfirst, storable_of_outline hsecond⟩

theorem step_queueing : EngineStep prims (Engine.new (node 1)) ⟨.enqueue (entry 9), queueing.2.1⟩ queueing.1 :=
  step_serveOn (.enqueue (entry 9)) (Engine.new (node 1)) MemoryBus.new

theorem step_firstCommit : EngineStep prims queueing.1 ⟨.runCycle, firstCommit.2.1⟩ firstCommit.1 := by
  unfold firstCommit
  exact step_serveNext _ _

theorem step_queueingAgain : EngineStep prims firstCommit.1 ⟨.enqueue (entry 10), queueingAgain.2.1⟩ queueingAgain.1 := by
  unfold queueingAgain
  exact step_serveNext _ _

theorem step_secondCommit : EngineStep prims queueingAgain.1 ⟨.runCycle, secondCommit.2.1⟩ secondCommit.1 := by
  unfold secondCommit
  exact step_serveNext _ _

/-- The node has attached an empty disk and queued its first entry. -/
theorem run_queueing : ∃ h₀ τ, h₀.New ∧ HostRun prims h₀ τ (attachedTo queueing.1) ∧ ∀ x ∈ τ, Whole x := by
  have hquiet : (attachedTo (Engine.new (node 1))).saving (.enqueue (entry 9)) queueing.1 = false := by
    rw [Host.saving, attachedTo, blocks_lengths.1]
    rfl
  have hstep := quiet_call (h := attachedTo (Engine.new (node 1))) step_queueing hquiet
  refine ⟨⟨Engine.new (node 1), .empty, false⟩, _, ⟨.inl ⟨_, rfl⟩, rfl, rfl⟩, .cons (attach_new rfl) (.cons hstep (.nil _)), ?_⟩
  intro x hx
  rcases List.mem_cons.1 hx with rfl | hx
  · exact trivial
  · obtain rfl := List.mem_singleton.1 hx
    exact fun hs => absurd (hs.symm.trans hquiet) Bool.true_eq_false.mp

/-- An engine saves its first block and comes to save a second one, in which the process dies. -/
theorem second_save {q f a s next : Engine} {t₁ t₂ t₃ : Trace} {pe : ProvenanceEntry} {h₀ : Host}
    {τ : List (Transition Host HostMove)} (hnew : h₀.New) (hrun : HostRun prims h₀ τ (attachedTo q)) (hwhole : ∀ x ∈ τ, Whole x)
    (hfirst : EngineStep prims q ⟨.runCycle, t₁⟩ f) (hqueue : EngineStep prims f ⟨.enqueue pe, t₂⟩ a)
    (hsecond : EngineStep prims a ⟨.runCycle, t₃⟩ s) (hq : q.blocks.length = 0) (hf : f.blocks.length = 1)
    (ha : a.blocks.length = 1) (hs : s.blocks.length = 2) (hst : f.Storable) (hnext : next.Renews s) :
    ∃ τ h records records', HostRun prims h₀ τ h ∧ (∀ x ∈ τ, Whole x) ∧ ∀ n, HostStep prims h
      (.crash ⟨.runCycle, t₃⟩ s records' n next)
      ⟨next, (Disk.empty.saveAll (f.saves records)).saveAll ((s.saves records').take n), false⟩ := by
  have hsaved : (attachedTo q).saving .runCycle f = true := by simp [Host.saving, attachedTo, hq, hf]
  obtain ⟨records, hr⟩ := exists_records (finite_step hfirst (backed_run hnew hrun).engine)
  have hcall : HostStep prims (attachedTo q) (.call ⟨.runCycle, t₁⟩ records)
      ⟨f, Disk.empty.saveAll (f.saves records), true⟩ := by
    have h : HostStep prims (attachedTo q) (.call ⟨.runCycle, t₁⟩ records) ⟨f, if _ then _ else _, true⟩ :=
      .call hfirst fun _ => hr
    rwa [hsaved] at h
  have hquiet : Host.saving ⟨f, Disk.empty.saveAll (f.saves records), true⟩ (.enqueue pe) a = false := by
    simp [Host.saving, Call.stops, hf, ha]
  have hsaving : Host.saving ⟨a, Disk.empty.saveAll (f.saves records), true⟩ .runCycle s = true := by
    simp [Host.saving, ha, hs]
  have hagain := quiet_call (h := ⟨f, Disk.empty.saveAll (f.saves records), true⟩) hqueue hquiet
  have hrun' := hrun.append (.cons hcall (.cons hagain (.nil _)))
  obtain ⟨records', hr'⟩ := exists_records (finite_step hsecond (backed_run hnew hrun').engine)
  refine ⟨_, _, records, records', hrun', ?_, fun n => .crash hsecond hsaving hr' hnext⟩
  intro x hx
  rcases List.mem_append.1 hx with hx | hx
  · exact hwhole x hx
  · rcases List.mem_cons.1 hx with rfl | hx
    · exact fun _ => hst
    · obtain rfl := List.mem_singleton.1 hx
      exact fun hs => absurd (hs.symm.trans hquiet) Bool.true_eq_false.mp

/-- The node of the two commits dies while it saves the second block. -/
theorem dies_in_second : ∃ h₀ τ h records records', h₀.New ∧ HostRun prims h₀ τ h ∧ (∀ x ∈ τ, Whole x) ∧ ∀ n,
    HostStep prims h (.crash ⟨.runCycle, secondCommit.2.1⟩ secondCommit.1 records' n (Engine.new (node 1)))
      ⟨Engine.new (node 1), (Disk.empty.saveAll (firstCommit.1.saves records)).saveAll
        ((secondCommit.1.saves records').take n), false⟩ := by
  obtain ⟨h₀, τ, hnew, hrun, hwhole⟩ := run_queueing
  obtain ⟨hnone, hone, hagain, htwo⟩ := blocks_lengths
  have hsame := sameEngine_run prims
    (.cons step_queueing (.cons step_firstCommit (.cons step_queueingAgain (.cons step_secondCommit (.nil _)))))
  have hnext : (Engine.new (node 1)).Renews secondCommit.1 := ⟨.inl ⟨_, rfl⟩, hsame.node.symm, hsame.peers.symm⟩
  obtain ⟨τ', h, records, records', hrun', hwhole', hcrash⟩ := second_save hnew hrun hwhole step_firstCommit
    step_queueingAgain step_secondCommit hnone hone hagain htwo storable_commits.1 hnext
  exact ⟨h₀, τ', h, records, records', hnew, hrun', hwhole', hcrash⟩

/-- An engine of one block is saved, and of a later one the first transactions. -/
theorem load_early (e saved : Engine) {f : Engine} (records records' : List (Hash × AnchorProof)) (hf : f.blocks.length = 1) :
    (e.loadPersisted ((Disk.empty.saveAll (f.saves records)).saveAll ((saved.saves records').take 2))).blocks = f.blocks ∧
    (e.loadPersisted ((Disk.empty.saveAll (f.saves records)).saveAll ((saved.saves records').take 3))).blocks = f.blocks ∧
      (e.loadPersisted ((Disk.empty.saveAll (f.saves records)).saveAll ((saved.saves records').take 3))).getStateRoot =
        saved.getStateRoot := by
  obtain ⟨b, hb⟩ := List.length_eq_one_iff.1 hf
  rw [Disk.saveAll_saves, hb]
  exact ⟨rfl, rfl, rfl⟩

/-- The first block is saved. The process dies after the second transaction that saves the second block: the engine that loads
the disk is as it was after the first block. -/
theorem early_crash_consistent : ∃ h₀ τ h l saved records next h', h₀.New ∧ HostRun prims h₀ τ h ∧ (∀ x ∈ τ, Whole x) ∧
    HostStep prims h (.crash l saved records 2 next) h' ∧ saved.Storable ∧ saved.blocks.length = 2 ∧
    (h'.engine.loadPersisted h'.disk).blocks.length = 1 ∧ CrashConsistent (h'.engine.loadPersisted h'.disk) := by
  obtain ⟨h₀, τ, h, records, records', hnew, hrun, hwhole, hcrash⟩ := dies_in_second
  have hblocks := (load_early (Engine.new (node 1)) secondCommit.1 records records' blocks_lengths.2.1).1
  refine ⟨h₀, τ, h, _, _, records', _, _, hnew, hrun, hwhole, hcrash 2, storable_commits.2, blocks_lengths.2.2.2,
    (congrArg List.length hblocks).trans blocks_lengths.2.1, ?_⟩
  exact (crash_consistent_iff hnew hrun hwhole (hcrash 2) storable_commits.2).2 fun ht => absurd ht.treeSaved (by decide)

/-- The first block is saved. The process dies after the third transaction that saves the second block: the engine that loads
the disk has the first block and the tree of both. -/
theorem late_crash_inconsistent : ∃ h₀ τ h l saved records next h', h₀.New ∧ HostRun prims h₀ τ h ∧ (∀ x ∈ τ, Whole x) ∧
    HostStep prims h (.crash l saved records 3 next) h' ∧ (h'.engine.loadPersisted h'.disk).blocks.length = 1 ∧
    ¬ CrashConsistent (h'.engine.loadPersisted h'.disk) := by
  obtain ⟨h₀, τ, h, records, records', hnew, hrun, hwhole, hcrash⟩ := dies_in_second
  obtain ⟨-, hblocks, hroot⟩ := load_early (Engine.new (node 1)) secondCommit.1 records records' blocks_lengths.2.1
  refine ⟨h₀, τ, h, _, _, records', _, _, hnew, hrun, hwhole, hcrash 3,
    (congrArg List.length hblocks).trans blocks_lengths.2.1, fun hc => ?_⟩
  obtain ⟨root, root', hne, -, hfirst, -, hsecond⟩ := outlines_eq
  obtain ⟨⟨b, hb, hbroot⟩, -⟩ := roots_of_outline hfirst
  have hrooted := hc.rooted b (by rw [hblocks, hb])
  exact hne (hbroot.symm.trans (hrooted.symm.trans (hroot.trans (roots_of_outline hsecond).2)))

end Sample

end Gleipnir
