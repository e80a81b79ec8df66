import Gleipnir.Consensus.Alone
import Gleipnir.Consensus.CallsSpec
import Gleipnir.Sample
import Gleipnir.Validation.Lineage

/-!
# The order of the entries in a block

Nothing sorts the entries between `Enqueue` and the candidate: `pending` is appended to, the cycle takes it as it stands, and
`RunPreparePhase` keeps the first entry of each hash. A single node therefore anchors entries with different hashes in the
order in which it was given them (`anchored_of_enqueued`).

The hash of the block covers that order. Two nodes in one state that got the same entries and read the same times have blocks
that are sorted by hash, and so equal in hash, exactly if both got the entries in that order (`sameBlock_iff`).
-/

namespace Gleipnir

open Atomic Atomic.Body

variable {X : Prims}

/-! ## Sorting by hash -/

/-- The hash of no entry is below that of an earlier one. -/
def SortedByHash (entries : List ProvenanceEntry) : Prop :=
  entries.Pairwise fun a b => bytesLess b.hash.toList a.hash.toList = false

instance instDecidableSortedByHash (entries : List ProvenanceEntry) : Decidable (SortedByHash entries) :=
  inferInstanceAs (Decidable (List.Pairwise _ entries))

theorem hash_eq_of_bytesLess {a b : Hash} (hab : bytesLess a.toList b.toList = false)
    (hba : bytesLess b.toList a.toList = false) : a = b :=
  List.Vector.toList_injective (eq_of_not_bytesLess hab hba)

/-- Entries with different hashes have one sorted order. -/
theorem SortedByHash.eq_of_perm {es es' : List ProvenanceEntry} (hnodup : (es.map (·.hash)).Nodup) (hperm : es.Perm es')
    (h : SortedByHash es) (h' : SortedByHash es') : es = es' := by
  refine hperm.eq_of_pairwise (fun a b ha hb hab hba => ?_) h h'
  exact List.inj_on_of_nodup_map hnodup ha (hperm.symm.subset hb) (hash_eq_of_bytesLess hba hab)

theorem dedupEntries_of_nodup (es : List ProvenanceEntry) :
    ∀ seen, (es.map (·.hash)).Nodup → (∀ pe ∈ es, pe.hash ∉ seen) → dedupEntries es seen = es := by
  induction es with
  | nil => exact fun _ _ _ => rfl
  | cons pe es ih =>
    intro seen hnodup hseen
    rw [List.map_cons, List.nodup_cons] at hnodup
    rw [dedupEntries, if_neg (hseen pe List.mem_cons_self), ih _ hnodup.2 ?_]
    intro qe hqe hmem
    rcases List.mem_cons.1 hmem with heq | hmem
    · exact hnodup.1 (heq ▸ List.mem_map_of_mem hqe)
    · exact hseen qe (List.mem_cons_of_mem _ hqe) hmem

/-! ## What was enqueued -/

/-- The entries were given to `Enqueue` in this order, and accepted. -/
inductive EnqueuedAll : Engine → List ProvenanceEntry → Engine → Prop
  | nil (e : Engine) : EnqueuedAll e [] e
  | cons {e e₁ e₂ : Engine} {t : Trace} {entry : ProvenanceEntry} {es : List ProvenanceEntry}
      (h : Runs (enqueue entry) e t (.done (.ok ())) e₁) (hs : EnqueuedAll e₁ es e₂) : EnqueuedAll e (entry :: es) e₂

variable {e e' : Engine} {t : Trace}

/-- An accepted entry goes to the end of the queue. -/
theorem enqueue_accepted {entry : ProvenanceEntry} (h : Runs (enqueue entry) e t (.done (.ok ())) e') :
    ∃ rateLimiter, e' = { e with rateLimiter, pending := e.pending ++ [entry] } := by
  cases runs_enqueue h with
  | accepted a rateLimiter hadmits hu ht => exact ⟨rateLimiter, rfl⟩

/-- The queue grows by the entries in the order of the calls, and only the limiter changes beside it. -/
theorem EnqueuedAll.queued {es : List ProvenanceEntry} (h : EnqueuedAll e es e') :
    ∃ rateLimiter, e' = { e with rateLimiter, pending := e.pending ++ es } := by
  induction h with
  | nil e => exact ⟨e.rateLimiter, by rw [List.append_nil]⟩
  | cons h hs ih =>
    obtain ⟨r₁, rfl⟩ := enqueue_accepted h
    obtain ⟨r₂, rfl⟩ := ih
    exact ⟨r₂, by rw [List.append_assoc, List.singleton_append]⟩

/-! ## The block of a node alone -/

/-- The block that a node alone proposes at the time `now`, up to its hash and its certificate. -/
def Engine.ownDraft (X : Prims) (e : Engine) (now : Int) : Block :=
  (e.grown X e.allPending).draftBlock X e.nextCycle e.node.asPeer (dedupEntries e.allPending []) e.requiredQuorum now

theorem Committing.alone_draft (hg : e.hasGossip = false) (cm : Committing X e t e') :
    ∃ now₁ now₂, t = [⟨.now, now₁⟩, ⟨.now, now₂⟩] ∧ SameHeader cm.final (e.ownDraft X now₂) := by
  obtain ⟨p, now₁, now₂, ht, hown, -, hfinal⟩ := cm.phases_alone hg
  obtain ⟨pending, v, r, hready⟩ := e.ready_eq X cm.pool
  refine ⟨now₁, now₂, ht, hfinal.trans ?_⟩
  rw [hready]
  exact ⟨rfl, rfl, rfl, UIDZeroSoulbound.id_inj hown, rfl, rfl, rfl⟩

/-- The block that a cycle appended names its own hash. -/
theorem Committing.blockHash_eq (cm : Committing X e t e') : cm.final.blockHash = computeBlockHash X cm.final := by
  obtain ⟨-, -, hhash, -⟩ := cm.source X
  exact hhash

/-! ## The order of arrival -/

/-- The times that the clock gave. -/
def readings (t : Trace) : List Int :=
  t.filterMap fun ev => match ev with
    | ⟨.now, now⟩ => some now
    | _ => none

/-- The entries are enqueued on `e` one by one, and the cycle that follows appends the block `b`. -/
def Anchors (X : Prims) (e : Engine) (es : List ProvenanceEntry) (t : Trace) (b : Block) : Prop :=
  ∃ queued post, EnqueuedAll e es queued ∧ Run (runCycle X queued) t post ∧ post.blocks = e.blocks ++ [b]

section Order

variable {e : Engine} (hg : e.hasGossip = false) (hnone : e.allPending = [])
include hg hnone

variable {es : List ProvenanceEntry} {t : Trace} {b : Block}

/-- The block is the draft over the entries as they were enqueued. -/
theorem Anchors.draft (h : Anchors X e es t b) :
    ∃ now₁ now₂, readings t = [now₁, now₂] ∧ SameHeader b ({ e with pending := es }.ownDraft X now₂) ∧
      b.blockHash = computeBlockHash X b := by
  obtain ⟨queued, post, henqueued, hcycled, hblocks⟩ := h
  obtain ⟨rateLimiter, rfl⟩ := henqueued.queued
  have hempty : e.pending = [] := (List.append_eq_nil_iff.1 hnone).2
  rw [hempty, List.nil_append] at hcycled
  obtain ⟨x, hcycled⟩ := run_runCycle X hcycled
  rcases cycle_blocks X hcycled with hsame | ⟨⟨cm⟩⟩
  · have hlen := congrArg List.length (hblocks.symm.trans hsame)
    simp at hlen
  · obtain rfl : cm.final = b := by
      have heq := cm.blocks_eq.symm.trans hblocks
      exact List.singleton_inj.1 (List.append_cancel_left heq)
    have hg' : ({ e with rateLimiter, pending := es } : Engine).hasGossip = false := hg
    obtain ⟨now₁, now₂, rfl, hdraft⟩ := cm.alone_draft hg'
    exact ⟨now₁, now₂, rfl, hdraft, cm.blockHash_eq⟩

/-- **The order of arrival is the order in the block.** -/
theorem anchored_of_enqueued (hnodup : (es.map (·.hash)).Nodup) (h : Anchors X e es t b) : b.anchored = es := by
  obtain ⟨now₁, now₂, -, hdraft, -⟩ := h.draft hg hnone
  have hretained : e.pendingEntries = [] := (List.append_eq_nil_iff.1 hnone).1
  rw [hdraft.anchored]
  change dedupEntries (e.pendingEntries ++ es) [] = es
  rw [hretained, List.nil_append]
  exact dedupEntries_of_nodup es [] hnodup fun _ _ => List.not_mem_nil

/-- The same entries in the same order at the same times give the same hash. -/
theorem blockHash_of_enqueued {t' : Trace} {b' : Block} (hclock : readings t = readings t') (h : Anchors X e es t b)
    (h' : Anchors X e es t' b') : b.blockHash = b'.blockHash := by
  obtain ⟨now₁, now₂, hread, hdraft, hhash⟩ := h.draft hg hnone
  obtain ⟨now₁', now₂', hread', hdraft', hhash'⟩ := h'.draft hg hnone
  have hnow : now₂ = now₂' := by
    rw [hread, hread'] at hclock
    exact (List.cons.inj (List.cons.inj hclock).2).1
  rw [hhash, hhash', hdraft.hash, hdraft'.hash, hnow]

/-- **Sorted blocks.** Two nodes in one state, without a channel and with nothing to anchor yet, get entries with different
hashes, each in its order, and run a cycle with the same clock. That both blocks are sorted by hash and have one hash is that
both nodes got the entries sorted. -/
theorem sameBlock_iff {es es' : List ProvenanceEntry} (hnodup : (es.map (·.hash)).Nodup) (hperm : es.Perm es')
    {t t' : Trace} (hclock : readings t = readings t') {b b' : Block} (h : Anchors X e es t b) (h' : Anchors X e es' t' b') :
    (SortedByHash b.anchored ∧ SortedByHash b'.anchored ∧ b.blockHash = b'.blockHash) ↔
      SortedByHash es ∧ SortedByHash es' := by
  have hnodup' : (es'.map (·.hash)).Nodup := (hperm.map _).nodup hnodup
  rw [anchored_of_enqueued hg hnone hnodup h, anchored_of_enqueued hg hnone hnodup' h']
  constructor
  · rintro ⟨hsorted, hsorted', -⟩
    exact ⟨hsorted, hsorted'⟩
  · rintro ⟨hsorted, hsorted'⟩
    obtain rfl := hsorted.eq_of_perm hnodup hperm hsorted'
    exact ⟨hsorted, hsorted, blockHash_of_enqueued hg hnone hclock h h'⟩

end Order

namespace Sample

open Gleipnir.Sample

/-- A single node is given an entry. -/
def given (k : UInt8) (e : Engine) : (Exit (Except CallError Unit) × Engine) × Trace × MemoryBus :=
  serveOn MemoryBus.new (enqueue (entry k) e)

/-- The node after two entries, and the cycle that follows. -/
def givenTwo (j k : UInt8) : Engine := (given k (given j (Engine.new (node 1))).1.2).1.2

def cycleOfTwo (j k : UInt8) : Engine × Trace × MemoryBus := serveOn MemoryBus.new (runCycle prims (givenTwo j k))

theorem anchors_cycleOfTwo {j k : UInt8} (hj : (given j (Engine.new (node 1))).1.1 = .done (.ok ()))
    (hk : (given k (given j (Engine.new (node 1))).1.2).1.1 = .done (.ok ())) {b : Block}
    (hblocks : (cycleOfTwo j k).1.blocks = [b]) :
    Anchors prims (Engine.new (node 1)) [entry j, entry k] (cycleOfTwo j k).2.1 b :=
  ⟨givenTwo j k, (cycleOfTwo j k).1, .cons (runs_serveOn _ _ _ hj) (.cons (runs_serveOn _ _ _ hk) (.nil _)),
    run_serveOn _ _, hblocks⟩

/-- The two orders of two entries: a block each, at one time, with different hashes. -/
def bothOrders : Computed (cycleOfTwo 1 2, cycleOfTwo 2 1) fun x => x.1.1.blocks.length = 1 ∧ x.2.1.blocks.length = 1 ∧
    readings x.1.2.1 = readings x.2.2.1 ∧ x.1.1.blocks.map (·.blockHash) ≠ x.2.1.blocks.map (·.blockHash) :=
  computed _ (by decide +kernel)

/-- A block for each of the orders. -/
theorem orders_anchored : ∃ t t' b b', readings t = readings t' ∧ b.blockHash ≠ b'.blockHash ∧
    Anchors prims (Engine.new (node 1)) [entry 1, entry 2] t b ∧
    Anchors prims (Engine.new (node 1)) [entry 2, entry 1] t' b' := by
  obtain ⟨x, hx, hone, hone', hclock, hdiffer⟩ := bothOrders
  obtain ⟨b, hb⟩ := List.length_eq_one_iff.1 hone
  obtain ⟨b', hb'⟩ := List.length_eq_one_iff.1 hone'
  rw [hb, hb'] at hdiffer
  simp only [hx] at hb hb' hclock
  have h := anchors_cycleOfTwo rfl rfl hb
  have h' := anchors_cycleOfTwo rfl rfl hb'
  exact ⟨_, _, b, b', hclock, fun heq => hdiffer (by simp [heq]), h, h'⟩

/-- Two nodes that get two entries in their sorted order. -/
theorem sorted_orders_same_block : ∃ t b, Anchors prims (Engine.new (node 1)) [entry 1, entry 2] t b ∧
    (SortedByHash b.anchored ∧ SortedByHash b.anchored ∧ b.blockHash = b.blockHash) ∧ SortedByHash [entry 1, entry 2] := by
  obtain ⟨t, -, b, -, -, -, h, -⟩ := orders_anchored
  have hsorted : SortedByHash [entry 1, entry 2] := by decide
  exact ⟨t, b, h, (sameBlock_iff rfl rfl (by decide) (.refl _) rfl h h).2 ⟨hsorted, hsorted⟩, hsorted⟩

/-- Two nodes that get two entries in different orders: a block is not sorted, and the hashes differ. -/
theorem orders_differ : (Engine.new (node 1)).hasGossip = false ∧ (Engine.new (node 1)).allPending = [] ∧
    ∃ t t' b b', readings t = readings t' ∧
    Anchors prims (Engine.new (node 1)) [entry 1, entry 2] t b ∧
    Anchors prims (Engine.new (node 1)) [entry 2, entry 1] t' b' ∧
    ([entry 1, entry 2].map (·.hash)).Nodup ∧ [entry 1, entry 2].Perm [entry 2, entry 1] ∧
    ¬ SortedByHash b'.anchored ∧ b.blockHash ≠ b'.blockHash := by
  obtain ⟨t, t', b, b', hclock, hdiffer, h, h'⟩ := orders_anchored
  refine ⟨rfl, rfl, t, t', b, b', hclock, h, h', by decide, .swap _ _ _, ?_, hdiffer⟩
  rw [anchored_of_enqueued rfl rfl (by decide) h']
  decide

end Sample

end Gleipnir
