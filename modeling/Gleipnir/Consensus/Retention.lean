import Gleipnir.Consensus.Atomicity

/-!
# What an aborted cycle retains

An aborted cycle retains its whole batch, and the queue it was built from stays as it is. So the next batch holds what was
queued once more, and after `k` aborted cycles `k + 1` times (`count_of_aborted`); only what was retained already is kept
once (`retained_iff`).
-/

namespace Gleipnir

open Atomic

variable {X : Prims}

/-- The transition is a cycle that appended nothing and counted the attempt. -/
structure AbortedCycle (x : Transition Engine Called) : Prop where
  call : x.label.call = .runCycle
  blocks : x.post.blocks = x.pre.blocks
  counted : x.post.state.cycle = x.pre.state.cycle + 1

/-- Each entry that `e` was awaiting occurs once in the batch of `e'`, so there are as many of them as before. -/
structure RetainedOnce (e e' : Engine) : Prop where
  once : ∀ pe ∈ e.allPending, e'.allPending.count pe = 1
  total : (e'.allPending.filter fun pe => pe ∈ e.allPending).length = e.allPending.length

/-! ## One cycle -/

variable {pe : ProvenanceEntry} {e e' : Engine} {l : Called}

/-- The pool adds no entry whose hash is known. -/
theorem not_mem_newEntries (pool : List ProvenanceEntry) :
    ∀ {known : List Hash}, pe.hash ∈ known → pe ∉ Engine.newEntries pool known := by
  induction pool with
  | nil => exact fun _ => List.not_mem_nil
  | cons pe' pool ih =>
    intro known hknown
    unfold Engine.newEntries
    split
    · exact ih hknown
    · next hnew =>
      intro hmem
      rcases List.mem_cons.1 hmem with rfl | hmem
      · exact hnew hknown
      · exact ih (List.mem_cons_of_mem _ hknown) hmem

/-- Taking the pool in leaves the queue alone and the number of times an awaited entry is held. -/
theorem count_start (h : pe ∈ e.allPending) (pool : List ProvenanceEntry) :
    (e.start pool).pending = e.pending ∧ (e.start pool).allPending.count pe = e.allPending.count pe := by
  have hknown : pe.hash ∈ e.pendingEntries.map (·.hash) ++ e.pending.map (·.hash) := by
    rw [← List.map_append]
    exact List.mem_map_of_mem h
  have hnew : (Engine.newEntries pool (e.pendingEntries.map (·.hash) ++ e.pending.map (·.hash))).count pe = 0 :=
    List.count_eq_zero.2 (not_mem_newEntries pool hknown)
  unfold Engine.start
  split
  · refine ⟨rfl, ?_⟩
    show ((e.pendingEntries ++ Engine.newEntries pool _) ++ e.pending).count pe = (e.pendingEntries ++ e.pending).count pe
    rw [List.count_append, List.count_append, hnew, List.count_append, Nat.add_zero]
  · exact ⟨rfl, rfl⟩

/-- An aborted cycle retains the batch it was started with. -/
theorem aborted_retains (hstep : EngineStep X e l e') (h : AbortedCycle ⟨e, l, e'⟩) :
    ∃ pool, e'.pendingEntries = (e.start pool).allPending ∧ e'.pending = (e.start pool).pending := by
  obtain ⟨c, t⟩ := l
  obtain ⟨rfl, hblocks, hcounted⟩ := h
  have hready : ∀ pool, (e.ready X pool).pending = (e.start pool).pending := fun pool => by simp
  obtain ⟨y, hcycled⟩ := run_runCycle X hstep
  dsimp only at hcycled hblocks hcounted
  cases hcycled with
  | @skipped pool hs =>
    have hnil := List.append_eq_nil_iff.1 hs.1
    exact ⟨pool, hnil.1.trans hs.1.symm, rfl⟩
  | panicked hs hp =>
    -- a panic is recovered before the attempt is counted
    obtain ⟨st, rfl⟩ := phases_frame X hp
    rw [Engine.ready_state] at hcounted
    exact absurd hcounted (cycle_ne _)
  | @aborted pool _ _ hs hp =>
    obtain ⟨st, rfl⟩ := phases_frame X hp
    exact ⟨pool, rfl, hready pool⟩
  | @failed pool _ _ _ _ hs hp hc =>
    rw [conclude_none hc]
    obtain ⟨st, rfl⟩ := phases_frame X hp
    exact ⟨pool, rfl, hready pool⟩
  | @committed pool _ _ final _ e₂ hs hp hc =>
    rw [concluded_blocks X hp hc] at hblocks
    simp at hblocks

/-- **One aborted cycle** adds the queue to the batch once more. -/
theorem count_of_abort (hstep : EngineStep X e l e') (h : AbortedCycle ⟨e, l, e'⟩) (hpe : pe ∈ e.allPending) :
    e'.pending = e.pending ∧
      e'.allPending.count pe = e.allPending.count pe + e.pending.count pe := by
  obtain ⟨pool, hretained, hpending⟩ := aborted_retains hstep h
  obtain ⟨hqueue, hcount⟩ := count_start hpe pool
  refine ⟨hpending.trans hqueue, ?_⟩
  rw [Engine.allPending, List.count_append, hretained, hcount, hpending, hqueue]

/-! ## Runs of aborted cycles -/

/-- **How often an entry is held** after a run of aborted cycles: once more for each of them if it is in the queue. -/
theorem count_of_aborted {τ : List (Transition Engine Called)} (h : EngineRun X e τ e') (habort : ∀ x ∈ τ, AbortedCycle x)
    (hpe : pe ∈ e.allPending) : e'.allPending.count pe = e.allPending.count pe + τ.length * e.pending.count pe := by
  induction h with
  | nil e => simp
  | @cons e e₁ e' l τ hs _ ih =>
    obtain ⟨hqueue, hcount⟩ := count_of_abort hs (habort _ List.mem_cons_self) hpe
    have hpos : 0 < e.allPending.count pe := List.count_pos_iff.2 hpe
    have hpe₁ : pe ∈ e₁.allPending := List.count_pos_iff.1 (by rw [hcount]; omega)
    rw [ih (fun x hx => habort x (List.mem_cons_of_mem _ hx)) hpe₁, hcount, hqueue, List.length_cons, Nat.succ_mul]
    omega

/-- Entries that are all held once are as many as they were. -/
theorem length_filter_of_once {awaited batch : List ProvenanceEntry} (hnodup : awaited.Nodup)
    (honce : ∀ pe ∈ awaited, batch.count pe = 1) : (batch.filter fun pe => pe ∈ awaited).length = awaited.length := by
  have hcount : ∀ pe, (batch.filter fun pe => pe ∈ awaited).count pe = awaited.count pe := by
    intro pe
    by_cases hpe : pe ∈ awaited
    · rw [List.count_filter (by simpa using hpe), honce pe hpe, List.count_eq_one_of_mem hnodup hpe]
    · rw [List.count_eq_zero_of_not_mem hpe, List.count_eq_zero]
      exact fun hmem => hpe (by simpa using List.of_mem_filter hmem)
  exact (List.perm_iff_count.2 hcount).length_eq

/-- **Retention is exact for what was retained before.** After one or more aborted cycles each of the pairwise distinct
entries that an engine was awaiting is in the next batch once exactly if none of them was still in the queue. -/
theorem retained_iff {e e' : Engine} {τ : List (Transition Engine Called)} (h : EngineRun X e τ e') (hτ : τ ≠ [])
    (habort : ∀ x ∈ τ, AbortedCycle x) (hnodup : e.allPending.Nodup) : RetainedOnce e e' ↔ e.pending = [] := by
  have honce : ∀ pe ∈ e.allPending, e.allPending.count pe = 1 := fun pe hpe => List.count_eq_one_of_mem hnodup hpe
  constructor
  · intro hretained
    refine List.eq_nil_iff_forall_not_mem.2 fun pe hpe => ?_
    have hmem : pe ∈ e.allPending := List.mem_append_right _ hpe
    have hcount := count_of_aborted h habort hmem
    rw [hretained.once pe hmem, honce pe hmem] at hcount
    have hk : 0 < τ.length := List.length_pos_iff.2 hτ
    have hpos : 0 < e.pending.count pe := List.count_pos_iff.2 hpe
    have hprod : 0 < τ.length * e.pending.count pe := Nat.mul_pos hk hpos
    omega
  · intro hqueue
    have hcount : ∀ pe ∈ e.allPending, e'.allPending.count pe = 1 := by
      intro pe hpe
      rw [count_of_aborted h habort hpe, honce pe hpe, hqueue]
      simp
    exact ⟨hcount, length_filter_of_once hnodup hcount⟩

namespace Sample

/-- The second of two validators has an entry from the pool, or one of its own, and the first one is silent. -/
def inWait (own : Bool) : Engine × Trace × MemoryBus :=
  if own then serveOn MemoryBus.new ((Call.enqueue (entry 9)).prog prims (two 2))
  else serveOn { MemoryBus.new with entries := [entry 9] } (Call.runCycle.prog prims (two 2))

/-- Its next cycle. -/
def waitedOn (own : Bool) : Engine × Trace × MemoryBus :=
  serveOn (inWait own).2.2 (Call.runCycle.prog prims (inWait own).1)

theorem run_waitedOn (own : Bool) : EngineRun prims (inWait own).1
    [⟨(inWait own).1, ⟨.runCycle, (waitedOn own).2.1⟩, (waitedOn own).1⟩] (waitedOn own).1 :=
  .cons (step_serveOn _ _ _) (.nil _)

theorem waitedOn_aborted (own : Bool) : ∀ x ∈ [(⟨(inWait own).1, ⟨.runCycle, (waitedOn own).2.1⟩, (waitedOn own).1⟩ :
    Transition Engine Called)], AbortedCycle x := by
  have hends : ∀ own, (waitedOn own).1.blocks = [] ∧ (inWait own).1.blocks = [] ∧
      (waitedOn own).1.state.cycle = (inWait own).1.state.cycle + 1 := by decide +kernel
  obtain ⟨hafter, hbefore, hcycle⟩ := hends own
  intro x hx
  obtain rfl := List.mem_singleton.1 hx
  exact ⟨rfl, hafter.trans hbefore.symm, hcycle⟩

/-- The entry from the pool is retained, and retained once. -/
theorem pooled_retained : ∃ e τ e', EngineRun prims e τ e' ∧ (∀ x ∈ τ, AbortedCycle x) ∧ e.allPending = [entry 9] ∧
    RetainedOnce e e' := by
  have hbatch : (inWait false).1.allPending = [entry 9] := by decide +kernel
  have hqueue : (inWait false).1.pending = [] := by decide +kernel
  have hnodup : (inWait false).1.allPending.Nodup := by
    rw [hbatch]
    exact List.nodup_singleton _
  exact ⟨_, _, _, run_waitedOn false, waitedOn_aborted false, hbatch,
    (retained_iff (run_waitedOn false) (List.cons_ne_nil _ _) (waitedOn_aborted false) hnodup).2 hqueue⟩

/-- The entry of its own is in the next batch twice after one aborted cycle. -/
theorem queued_doubled : ∃ e₀ τ₀ e τ e', e₀.Fresh ∧ EngineRun prims e₀ τ₀ e ∧ EngineRun prims e τ e' ∧ τ.length = 1 ∧
    (∀ x ∈ τ, AbortedCycle x) ∧ e.allPending = [entry 9] ∧ e'.allPending.count (entry 9) = 2 ∧ ¬ RetainedOnce e e' := by
  have hbatch : (inWait true).1.allPending = [entry 9] := by decide +kernel
  have htwice : (waitedOn true).1.allPending.count (entry 9) = 2 := by decide +kernel
  have hfresh : (two 2).Fresh := .inr ⟨_, _, _, rfl⟩
  have hfirst : EngineRun prims (two 2) _ (inWait true).1 :=
    .cons (step_serveOn (.enqueue (entry 9)) (two 2) MemoryBus.new) (.nil _)
  refine ⟨two 2, _, _, _, _, hfresh, hfirst, run_waitedOn true, rfl, waitedOn_aborted true, hbatch, htwice, fun h => ?_⟩
  have honce := h.once (entry 9) (by rw [hbatch]; exact List.mem_singleton_self _)
  rw [htwice] at honce
  cases honce

end Sample

end Gleipnir
