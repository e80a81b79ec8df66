import Gleipnir.Consensus.SingleNode
import Gleipnir.Lib.Readers

/-!
# Streams of blocks

`StreamBlocks` of `server/lightclient.go` and of `lightclient/service.go`, which read a chain block by block while its engine
runs, and the form in which `server/server.go` sends a block.

* `stream_faithful`: what a server has streamed is a segment of the chain, and one that ends has left out no block that was
  there when it was opened.
* `stream_followed`: a light client that follows a single node by a stream accepts every block it gets.
-/

namespace Gleipnir

open Atomic Atomic.Body LightClient

/-! ## Blocks on the wire -/

/-- `pb.ProvenanceEntry`. -/
structure PbEntry where
  hash : Bytes
  submitter : Bytes
  timestamp : Int64
  label : String
  approver : Bytes
  reference : Bytes
  signature : Bytes
  mandateRef : Bytes
  deriving DecidableEq

/-- `pb.ValidatorInfo`. -/
structure PbValidator where
  validatorId : Bytes
  dilithium3Pk : Bytes
  vrfPk : Bytes
  contractHash : Bytes
  deriving DecidableEq

/-- `pb.QuorumConfig`. -/
structure PbQuorum where
  totalValidators : UInt64
  requiredSigs : UInt64
  deriving DecidableEq

/-- `pb.Block`. -/
structure PbBlock where
  index : UInt64
  prevHash : Bytes
  stateRoot : Bytes
  proposer : Bytes
  anchored : List PbEntry
  lambda1 : ℚ
  timestamp : Int64
  validators : List PbValidator
  quorum : PbQuorum
  blockHash : Bytes
  protocolVersion : UInt32
  prepareSigsBitmap : Bytes
  prepareSigs : List Bytes
  commitSig : Bytes
  externalAnchors : List String
  keyRotationEpoch : UInt64
  legacyAnchor : Bytes
  metadata : AList fun _ : String => Bytes
  deriving DecidableEq

/-- An optional array as bytes, as `mandateRefBytes` renders it: nil when it is absent. -/
def optionalBytes {n : Nat} (a : Option (Arr n)) : Bytes := (a.map List.Vector.toList).getD []

/-- `nonNegativeUint64`. -/
def nonNegativeUint64 (n : Int) : UInt64 := if n < 0 then 0 else UInt64.ofNat n.toNat

def ProvenanceEntry.toProto (e : ProvenanceEntry) : PbEntry where
  hash := e.hash.toList
  submitter := e.submitter.toList
  timestamp := e.timestamp
  label := e.label
  approver := optionalBytes e.approver
  reference := optionalBytes e.reference
  signature := e.signature
  mandateRef := optionalBytes e.mandateRef

def ValidatorInfo.toProto (v : ValidatorInfo) : PbValidator :=
  ⟨v.validatorID.toList, v.dilithium3PK.toList, v.vrfPK.toList, v.contractHash.toList⟩

def QuorumConfig.toProto (q : QuorumConfig) : PbQuorum :=
  ⟨nonNegativeUint64 q.totalValidators, nonNegativeUint64 q.requiredSigs⟩

/-- `blockToProto`. Lists that are nil and lists that are empty look the same on the wire. -/
def blockToProto (b : Block) : PbBlock where
  index := b.index
  prevHash := b.prevHash
  stateRoot := b.stateRoot
  proposer := b.proposer.toList
  anchored := b.anchored.map ProvenanceEntry.toProto
  lambda1 := b.lambda1
  timestamp := b.timestamp
  validators := b.validators.map ValidatorInfo.toProto
  quorum := b.quorum.toProto
  blockHash := b.blockHash
  protocolVersion := b.protocolVersion.toUInt32
  prepareSigsBitmap := b.prepareSigsBitmap
  prepareSigs := b.prepareSigs
  commitSig := b.commitSig
  externalAnchors := b.externalAnchors
  keyRotationEpoch := b.keyRotationEpoch
  legacyAnchor := b.legacyAnchor
  metadata := b.metadata

/-! ## Streams -/

/-- How a stream stands: its loop runs or has returned, because its caller is gone or a block could not be sent. -/
inductive StreamStatus where
  | running
  | ended
  | cancelled
  | failed
  deriving DecidableEq

/-- A stream of blocks: the bounds and the variable of its loop, and what it has sent. -/
structure BlockStream (β : Type) where
  start : UInt64
  stop : UInt64
  i : UInt64
  sent : List β
  status : StreamStatus
  /-- How long the chain was when the stream was opened. -/
  height : Nat

/-- A stream whose loop is about to start. -/
def BlockStream.new {β : Type} (start stop : UInt64) (height : Nat) : BlockStream β := ⟨start, stop, start, [], .running, height⟩

/-- One turn of the loop of both functions. The context is done, or the block is read and sent; the engine is read under its
lock, once in a turn. -/
def BlockStream.turn {β : Type} (wire : Block → β) (e : Engine) (done sends : Bool) (s : BlockStream β) : BlockStream β :=
  if s.status ≠ .running then s
  else if s.i ≤ s.stop then
    if done then { s with status := .cancelled }
    else match e.getBlock s.i with
      | none => { s with status := .ended }
      | some block =>
        if sends then { s with i := s.i + 1, sent := s.sent ++ [wire block] }
        else { s with status := .failed }
  else { s with status := .ended }

def BlockStream.Turns {β : Type} (wire : Block → β) (e : Engine) (s s' : BlockStream β) : Prop :=
  ∃ done sends, s' = s.turn wire e done sends

def maxStreamBlocksPerResponse : UInt64 := 1024

/-- The last index that `Server.StreamBlocks` reads for a range. -/
def streamStop (first last : UInt64) : UInt64 :=
  let last := if last < first then first else last
  if last - first ≥ maxStreamBlocksPerResponse then first + maxStreamBlocksPerResponse - 1 else last

/-- `Server.StreamBlocks`, before its loop. -/
def streamBlocks (first last : UInt64) (e : Engine) : BlockStream PbBlock := .new first (streamStop first last) e.blocks.length

namespace LightClient

/-- `lightclient.Service`, for an engine as its source. -/
structure Service where
  maxStreamBlocks : UInt64 := 4096
  positive : 0 < maxStreamBlocks := by decide

/-- `WithMaxStreamBlocks`. -/
def Service.withMaxStreamBlocks (s : Service) (n : UInt64) : Service := if h : n > 0 then ⟨n, h⟩ else s

/-- The last index that `Service.StreamBlocks` reads. -/
def Service.streamEnd (s : Service) (startIndex total : UInt64) : UInt64 :=
  let last := startIndex + s.maxStreamBlocks - 1
  if total > 0 ∧ last ≥ total then total - 1 else last

/-- `Service.StreamBlocks`, before its loop; `BlockCount` is read once. -/
def Service.streamBlocks (s : Service) (startIndex : UInt64) (e : Engine) : BlockStream Block :=
  .new startIndex (s.streamEnd startIndex (UInt64.ofNat e.blocks.length)) e.blocks.length

end LightClient

/-! ## Bounds -/

theorem toNat_add_sub_one {a b : UInt64} (hb : 0 < b.toNat) (h : a.toNat + b.toNat ≤ 2 ^ 64) :
    (a + b - 1).toNat = a.toNat + b.toNat - 1 := by
  have h1 : (1 : UInt64).toNat = 1 := rfl
  rw [UInt64.toNat_sub, UInt64.toNat_add, h1]
  omega

theorem toNat_add_sub_one_le (a : UInt64) {b : UInt64} (hb : 0 < b.toNat) : (a + b - 1).toNat ≤ a.toNat + b.toNat - 1 := by
  have h1 : (1 : UInt64).toNat = 1 := rfl
  have ha := a.toNat_lt
  have hb' := b.toNat_lt
  rw [UInt64.toNat_sub, UInt64.toNat_add, h1]
  omega

/-! ## What a stream has sent -/

section Invariant

variable {β : Type} {wire : Block → β} {e e' : Engine} {s s' : BlockStream β}

/-- What a stream has sent is the chain from its first index on, within its bounds; if it has come to its end, nothing is
missing that was there when it was opened. -/
structure Streamed (wire : Block → β) (e : Engine) (s : BlockStream β) : Prop where
  segment : s.sent <+: (e.blocks.map wire).drop s.start.toNat
  position : s.i.toNat = s.start.toNat + s.sent.length
  bounded : s.sent ≠ [] → s.i.toNat ≤ s.stop.toNat + 1
  opened : s.height ≤ e.blocks.length
  complete : s.status = .ended → ∀ k, k ≤ s.stop.toNat → k < s.height → k < s.start.toNat + s.sent.length

theorem streamed_new (start stop : UInt64) : Streamed wire e (.new start stop e.blocks.length) where
  segment := List.nil_prefix
  position := rfl
  bounded h := absurd rfl h
  opened := le_rfl
  complete h := by cases h

/-- The chain grows. -/
theorem Streamed.grow (h : Streamed wire e s) (hgrow : e.blocks <+: e'.blocks) : Streamed wire e' s :=
  ⟨h.segment.trans ((hgrow.map wire).drop _), h.position, h.bounded, h.opened.trans hgrow.length_le, h.complete⟩

/-- What a turn does. -/
inductive Turned (wire : Block → β) (e : Engine) (s : BlockStream β) : BlockStream β → Prop
  | idle : Turned wire e s s
  | stopped (status : StreamStatus) (hstatus : status ≠ .ended) : Turned wire e s { s with status }
  | ended (hend : s.stop.toNat < s.i.toNat ∨ e.blocks.length ≤ s.i.toNat) : Turned wire e s { s with status := .ended }
  | sent {block : Block} (hrunning : s.status = .running) (hi : s.i.toNat ≤ s.stop.toNat)
      (hblock : e.blocks[s.i.toNat]? = some block) :
      Turned wire e s { s with i := s.i + 1, sent := s.sent ++ [wire block] }

theorem turned_of_turns (h : s.Turns wire e s') : Turned wire e s s' := by
  obtain ⟨done, sends, rfl⟩ := h
  unfold BlockStream.turn
  split
  · exact .idle
  next hrunning =>
  split
  next hle =>
    split
    · exact .stopped _ (by decide)
    · split
      next hnone => exact .ended (.inr (List.getElem?_eq_none_iff.1 hnone))
      next block hblock =>
        split
        · exact .sent (not_not.1 hrunning) (UInt64.le_iff_toNat_le.1 hle) hblock
        · exact .stopped _ (by decide)
  next hgt => exact .ended (.inl (Nat.lt_of_not_le fun hle => hgt (UInt64.le_iff_toNat_le.2 hle)))

/-- A turn reads the block that comes next. Its index does not wrap, as the chain is shorter than that. -/
theorem Streamed.turn (h : Streamed wire e s) (hlen : e.blocks.length < 2 ^ 64) (hturn : s.Turns wire e s') :
    Streamed wire e s' := by
  have hposition := h.position
  have hopened := h.opened
  cases turned_of_turns hturn with
  | idle => exact h
  | stopped status hstatus => exact ⟨h.segment, h.position, h.bounded, h.opened, fun hended => absurd hended hstatus⟩
  | ended hend =>
    refine ⟨h.segment, h.position, h.bounded, h.opened, fun _ k hk hheight => ?_⟩
    dsimp only at hk hheight ⊢
    omega
  | @sent block hrunning hi hblock =>
    have hin := (List.getElem?_eq_some_iff.1 hblock).1
    have hnext : (s.i + 1).toNat = s.i.toNat + 1 := by
      rw [UInt64.toNat_add]
      exact Nat.mod_eq_of_lt (show s.i.toNat + 1 < 2 ^ 64 by omega)
    have hwire : (e.blocks.map wire)[s.start.toNat + s.sent.length]? = some (wire block) := by
      rw [← hposition, List.getElem?_map, hblock]
      rfl
    refine ⟨prefix_drop_append h.segment hwire, ?_, fun _ => ?_, h.opened, fun hended => ?_⟩
    · simp only [hnext, hposition, List.length_append, List.length_singleton]
      omega
    · simp only [hnext]
      omega
    · rw [hrunning] at hended
      cases hended

theorem Turned.bounds (h : Turned wire e s s') : s'.start = s.start ∧ s'.stop = s.stop ∧ s'.height = s.height := by
  cases h <;> exact ⟨rfl, rfl, rfl⟩

end Invariant

/-! ## Streams beside an engine that runs -/

section Runs

variable (X : Prims) {ι β : Type} [DecidableEq ι]

/-- An engine with streams beside it. -/
abbrev Streams (ι β : Type) : Type := Watched Engine ι (BlockStream β)

abbrev StreamTrace (ι β : Type) : Type := List (Transition (Streams ι β) (WatchMove Called ι))

/-- Calls of an engine, and streams that are opened and take their turns between them. -/
abbrev StreamRun (Opens : Engine → BlockStream β → Prop) (wire : Block → β) (e : Engine) (τ : StreamTrace ι β)
    (w' : Streams ι β) : Prop :=
  Path (WatchStep (EngineStep X) Opens (BlockStream.Turns wire)) ⟨e, fun _ => none⟩ τ w'

variable {X} {Opens : Engine → BlockStream β → Prop} {wire : Block → β} {e₀ : Engine}
  {τ : StreamTrace ι β} {w' : Streams ι β} {i : ι} {s : BlockStream β}

theorem streamed_run {B : UInt64 → UInt64 → Nat → Prop}
    (hopens : ∀ e s, Opens e s → ∃ start stop, s = .new start stop e.blocks.length ∧ B start stop e.blocks.length)
    (hrun : StreamRun X Opens wire e₀ τ w') (hlen : w'.state.blocks.length < 2 ^ 64) (hs : w'.readers i = some s) :
    Streamed wire w'.state s ∧ B s.start s.stop s.height := by
  have hgrow : ∀ e l e', EngineStep X e l e' → e.blocks <+: e'.blocks := by
    intro e l e' hstep
    rcases step_grows X e l e' hstep with heq | ⟨b, heq⟩
    · rw [heq]
    · rw [heq]
      exact List.prefix_append _ _
  have hall := WatchStep.invariant
    (I := fun e s => (e.blocks.length < 2 ^ 64 → Streamed wire e s) ∧ B s.start s.stop s.height) ?_ ?_ ?_ hrun
    (fun i r hr => by cases hr) i s hs
  · exact ⟨hall.1 hlen, hall.2⟩
  · intro e l e' s hstep hI
    have hextends := hgrow e l e' hstep
    exact ⟨fun hlen => (hI.1 (hextends.length_le.trans_lt hlen)).grow hextends, hI.2⟩
  · intro e s hs
    obtain ⟨start, stop, rfl, hB⟩ := hopens e s hs
    exact ⟨fun _ => streamed_new start stop, hB⟩
  · intro e s s' hturn hI
    obtain ⟨hstart, hstop, hheight⟩ := (turned_of_turns hturn).bounds
    rw [hstart, hstop, hheight]
    exact ⟨fun hlen => (hI.1 hlen).turn hlen hturn, hI.2⟩

/-- The streams of a server. -/
def ServerOpens (e : Engine) (s : BlockStream PbBlock) : Prop := ∃ first last, s = streamBlocks first last e

theorem toNat_streamStop (first last : UInt64) :
    (streamStop first last).toNat = min (max first.toNat last.toNat) (first.toNat + 1023) := by
  have hmax : (if last < first then first else last).toNat = max first.toNat last.toNat := by
    split
    next hlt => rw [max_eq_left (UInt64.lt_iff_toNat_lt.1 hlt).le]
    next hge => rw [max_eq_right (Nat.le_of_not_lt fun hlt => hge (UInt64.lt_iff_toNat_lt.2 hlt))]
  have hcap : maxStreamBlocksPerResponse.toNat = 1024 := rfl
  unfold streamStop
  dsimp only
  generalize (if last < first then first else last) = stop at hmax ⊢
  have hle : first.toNat ≤ stop.toNat := hmax ▸ le_max_left _ _
  have hsub : (stop - first).toNat = stop.toNat - first.toNat := UInt64.toNat_sub_of_le _ _ (UInt64.le_iff_toNat_le.2 hle)
  have hlt := stop.toNat_lt
  rw [← hmax]
  split
  next hge =>
    have hge' := UInt64.le_iff_toNat_le.1 hge
    rw [hsub, hcap] at hge'
    rw [toNat_add_sub_one (by rw [hcap]; decide) (by omega), hcap]
    omega
  next hlt' =>
    have hlt'' : ¬ 1024 ≤ (stop - first).toNat := fun hge => hlt' (UInt64.le_iff_toNat_le.2 hge)
    omega

/-- **What a server has streamed** while its engine runs, beside any number of other streams, is a segment of the chain from
the first index on, of at most 1024 blocks. A stream that has come to its end has left out no block of the requested range
that was there when it was opened, up to that number. -/
theorem stream_faithful {w' : Streams ι PbBlock} {s : BlockStream PbBlock} {τ : StreamTrace ι PbBlock}
    (hrun : StreamRun X ServerOpens blockToProto e₀ τ w') (hlen : w'.state.blocks.length < 2 ^ 64)
    (hs : w'.readers i = some s) :
    s.sent = ((w'.state.blocks.drop s.start.toNat).take s.sent.length).map blockToProto ∧ s.sent.length ≤ 1024 ∧
      ∃ last, s.stop = streamStop s.start last ∧ (s.status = .ended → ∀ k, k < 1024 → k ≤ last.toNat - s.start.toNat →
        s.start.toNat + k < s.height → k < s.sent.length) := by
  have hopens : ∀ e s, ServerOpens e s → ∃ start stop, s = .new start stop e.blocks.length ∧
      ∃ last, stop = streamStop start last := by
    rintro e _ ⟨first, last, rfl⟩
    exact ⟨first, _, rfl, last, rfl⟩
  obtain ⟨hstreamed, last, hstop⟩ := streamed_run (B := fun start stop _ => ∃ last, stop = streamStop start last) hopens hrun
    hlen hs
  have hbound := toNat_streamStop s.start last
  rw [← hstop] at hbound
  refine ⟨?_, ?_, last, hstop, fun hended k hk hlast hheight => ?_⟩
  · rw [List.map_take, List.map_drop]
    exact List.prefix_iff_eq_take.1 hstreamed.segment
  · by_cases hnil : s.sent = []
    · simp [hnil]
    · have hlast := hstreamed.bounded hnil
      have hposition := hstreamed.position
      omega
  · have hsent := hstreamed.complete hended (s.start.toNat + k) (by omega) hheight
    omega

/-- The streams of a light client service. -/
def ServiceOpens (service : Service) (e : Engine) (s : BlockStream Block) : Prop :=
  ∃ startIndex, s = service.streamBlocks startIndex e

theorem toNat_streamEnd_le (service : Service) (startIndex total : UInt64) :
    (service.streamEnd startIndex total).toNat < startIndex.toNat + service.maxStreamBlocks.toNat := by
  have hpos : 0 < service.maxStreamBlocks.toNat := UInt64.lt_iff_toNat_lt.1 service.positive
  have hle := toNat_add_sub_one_le startIndex hpos
  unfold Service.streamEnd
  dsimp only
  split
  next hcap =>
    have htotal := UInt64.le_iff_toNat_le.1 hcap.2
    have hsome := UInt64.lt_iff_toNat_lt.1 hcap.1
    have hone : (total - 1).toNat = total.toNat - 1 := UInt64.toNat_sub_of_le _ _ (UInt64.le_iff_toNat_le.2 hsome)
    omega
  · omega

/-- Nothing of the range is cut off but what the chain does not have, if the range does not wrap. -/
theorem le_toNat_streamEnd {service : Service} {startIndex : UInt64} {height k : Nat} (hheight : height < 2 ^ 64)
    (hwrap : startIndex.toNat + service.maxStreamBlocks.toNat ≤ 2 ^ 64) (hk : k < service.maxStreamBlocks.toNat)
    (hin : startIndex.toNat + k < height) :
    startIndex.toNat + k ≤ (service.streamEnd startIndex (UInt64.ofNat height)).toNat := by
  have hpos : 0 < service.maxStreamBlocks.toNat := UInt64.lt_iff_toNat_lt.1 service.positive
  have hlast := toNat_add_sub_one hpos hwrap
  have htotal : (UInt64.ofNat height).toNat = height := UInt64.toNat_ofNat_of_lt' hheight
  unfold Service.streamEnd
  dsimp only
  split
  next hcap =>
    have hsome := UInt64.lt_iff_toNat_lt.1 hcap.1
    have hone : (UInt64.ofNat height - 1).toNat = (UInt64.ofNat height).toNat - 1 :=
      UInt64.toNat_sub_of_le _ _ (UInt64.le_iff_toNat_le.2 hsome)
    omega
  · omega

/-- **A light client that follows a single node by a stream** accepts every block that it gets, whenever the stream was opened
and whatever the node does meanwhile: the client has followed the chain up to the first index, and takes each block for its
next anchor. The stream gives it no more blocks than the service allows, and when it ends all those that the chain had. -/
theorem stream_followed {node : Node} (hkeys : CompleteKeys X node.uid) {service : Service}
    {w' : Streams ι Block} {s : BlockStream Block} {τ : StreamTrace ι Block}
    (hrun : StreamRun X (ServiceOpens service) id (Engine.new node) τ w')
    (hcalls : ∀ x ∈ ownerMoves τ, x.label.call.plain = true) (hlen : w'.state.blocks.length < 2 ^ 64)
    (hs : w'.readers i = some s) :
    (∀ k b, s.sent[k]? = some b →
      Accepts X (anchorAfter [node.asPeer.validatorInfo] (w'.state.blocks.take s.start.toNat ++ s.sent.take k)) b) ∧
      s.sent.length ≤ service.maxStreamBlocks.toNat ∧
      (s.status = .ended → s.start.toNat + service.maxStreamBlocks.toNat ≤ 2 ^ 64 → ∀ k, k < service.maxStreamBlocks.toNat →
        s.start.toNat + k < s.height → k < s.sent.length) := by
  have hopens : ∀ e s, ServiceOpens service e s → ∃ start stop, s = .new start stop e.blocks.length ∧
      stop = service.streamEnd start (UInt64.ofNat e.blocks.length) := by
    rintro e _ ⟨startIndex, rfl⟩
    exact ⟨startIndex, _, rfl, rfl⟩
  obtain ⟨hstreamed, hstop⟩ := streamed_run
    (B := fun start stop height => stop = service.streamEnd start (UInt64.ofNat height)) hopens hrun hlen hs
  have hengine : EngineRun X (Engine.new node) (ownerMoves τ) w'.state := WatchStep.owner_run hrun
  have hsegment := hstreamed.segment
  rw [List.map_id] at hsegment
  refine ⟨fun k b hb => ?_, ?_, fun hended hwrap k hk hheight => ?_⟩
  · -- the block is in the chain, and the client has followed everything before it
    have hk := (List.getElem?_eq_some_iff.1 hb).1
    have hblock : w'.state.blocks[s.start.toNat + k]? = some b := by
      obtain ⟨rest, hrest⟩ := hsegment
      rw [← List.getElem?_drop, ← hrest, List.getElem?_append_left hk, hb]
    have hbefore : w'.state.blocks.take s.start.toNat ++ s.sent.take k = w'.state.blocks.take (s.start.toNat + k) := by
      rw [List.take_add, List.prefix_iff_eq_take.1 hsegment, List.take_take, Nat.min_eq_left hk.le]
    rw [hbefore]
    have hblocks := fun j c (hc : w'.state.blocks[j]? = some c) => (solo_blocks hkeys hengine hcalls hc).2
    exact (accepts_iff X).2
      (verified_of_solo hkeys (solo_blocks hkeys hengine hcalls hblock).1 (linked_of_solo hblocks hblock))
  · by_cases hnil : s.sent = []
    · simp [hnil]
    · have hlast := hstreamed.bounded hnil
      have hposition := hstreamed.position
      have hbound := toNat_streamEnd_le service s.start (UInt64.ofNat s.height)
      rw [← hstop] at hbound
      omega
  · have hlast := le_toNat_streamEnd (hstreamed.opened.trans_lt hlen) hwrap hk hheight
    rw [← hstop] at hlast
    have hsent := hstreamed.complete hended (s.start.toNat + k) hlast hheight
    omega

end Runs

namespace Sample

open LightClient.Sample

/-- A stream that is opened after a run of the engine takes its turns. -/
theorem stream_turns {X : Prims} {β : Type} {wire : Block → β} {Opens : Engine → BlockStream β → Prop} {s : BlockStream β}
    {e e' : Engine} {σ : List (Transition Engine Called)} (hrun : EngineRun X e σ e') (hopens : Opens e' s) (n : Nat) :
    ∃ (τ : StreamTrace Unit β) (w : Streams Unit β), StreamRun X Opens wire e τ w ∧ w.state = e' ∧ ownerMoves τ = σ ∧
      w.readers () = some ((BlockStream.turn wire e' false true)^[n] s) := by
  induction n with
  | zero =>
    obtain ⟨τ, hτ, hmoves⟩ := WatchStep.of_owner Opens (BlockStream.Turns wire) (fun _ : Unit => none) hrun
    refine ⟨τ ++ [_], _, hτ.append (.cons (.opens (i := ()) rfl hopens) (.nil _)), rfl, ?_, rfl⟩
    rw [ownerMoves, List.filterMap_append]
    exact (List.append_nil _).trans hmoves
  | succ n ih =>
    obtain ⟨τ, w, hτ, rfl, hmoves, hs⟩ := ih
    refine ⟨τ ++ [_], _, hτ.append (.cons (.reads (i := ()) hs ⟨false, true, rfl⟩) (.nil _)), rfl, ?_, ?_⟩
    · rw [ownerMoves, List.filterMap_append]
      exact (List.append_nil _).trans hmoves
    · rw [Function.iterate_succ_apply']
      rfl

/-- Three turns send a chain of two blocks and end the stream. -/
theorem turns_twice {β : Type} (wire : Block → β) {e : Engine} (htwo : e.blocks.length = 2) (stop : UInt64) (hstop : 1 ≤ stop) :
    ((BlockStream.turn wire e false true)^[3] (.new 0 stop 2)).sent.length = 2 ∧
      ((BlockStream.turn wire e false true)^[3] (.new 0 stop 2)).status = .ended := by
  obtain ⟨b₀, b₁, hblocks⟩ := List.length_eq_two.1 htwo
  have hread : e.getBlock 0 = some b₀ ∧ e.getBlock 1 = some b₁ ∧ e.getBlock 2 = none := by
    simp [Engine.getBlock, hblocks]
  have hzero : (0 : UInt64) ≤ stop := UInt64.le_iff_toNat_le.2 (Nat.zero_le _)
  have hfirst : BlockStream.turn wire e false true (.new 0 stop 2) = ⟨0, stop, 1, [wire b₀], .running, 2⟩ := by
    simp [BlockStream.turn, BlockStream.new, hzero, hread.1]
  have hsecond : BlockStream.turn wire e false true ⟨0, stop, 1, [wire b₀], .running, 2⟩ =
      ⟨0, stop, 2, [wire b₀, wire b₁], .running, 2⟩ := by
    simp [BlockStream.turn, hstop, hread.2.1]
  have hthird : BlockStream.turn wire e false true ⟨0, stop, 2, [wire b₀, wire b₁], .running, 2⟩ =
      ⟨0, stop, 2, [wire b₀, wire b₁], .ended, 2⟩ := by
    simp [BlockStream.turn, hread.2.2]
  rw [Function.iterate_succ_apply, Function.iterate_succ_apply, Function.iterate_succ_apply, hfirst, hsecond, hthird]
  exact ⟨rfl, rfl⟩

/-- The server of a node streams its two blocks to the end. -/
theorem lone_streamed : ∃ s : BlockStream PbBlock, s.sent.length = 2 ∧ s.status = .ended ∧
    s.sent = ((lone.2.1.blocks.drop s.start.toNat).take s.sent.length).map blockToProto := by
  have hstream : ∀ e' σ, EngineRun tagging (Engine.new (node 1)) σ e' → e'.blocks.length = 2 →
      ∃ s : BlockStream PbBlock, s.sent.length = 2 ∧ s.status = .ended ∧
        s.sent = ((e'.blocks.drop s.start.toNat).take s.sent.length).map blockToProto := by
    intro e' σ hengine htwo
    have hopens : ServerOpens e' (.new 0 (streamStop 0 5) 2) := ⟨0, 5, by rw [streamBlocks, htwo]⟩
    obtain ⟨τ, w, hrun, rfl, -, hs⟩ := stream_turns hengine hopens 3
    obtain ⟨hsent, hended⟩ := turns_twice blockToProto htwo (streamStop 0 5) (by decide)
    exact ⟨_, hsent, hended, (stream_faithful hrun (by rw [htwo]; decide) hs).1⟩
  exact hstream _ _ run_lone lone_blocks.1

/-- A light client follows the node to the end of a stream. -/
theorem lone_followed : ∃ s : BlockStream Block, s.sent.length = 2 ∧ s.status = .ended ∧ ∀ k b, s.sent[k]? = some b →
    Accepts tagging (anchorAfter [(node 1).asPeer.validatorInfo] (lone.2.1.blocks.take s.start.toNat ++ s.sent.take k)) b := by
  have hstream : ∀ e' σ, EngineRun tagging (Engine.new (node 1)) σ e' → (∀ x ∈ σ, x.label.call.plain = true) →
      e'.blocks.length = 2 → ∃ s : BlockStream Block, s.sent.length = 2 ∧ s.status = .ended ∧ ∀ k b, s.sent[k]? = some b →
        Accepts tagging (anchorAfter [(node 1).asPeer.validatorInfo] (e'.blocks.take s.start.toNat ++ s.sent.take k)) b := by
    intro e' σ hengine hcalls htwo
    have hopens : ServiceOpens {} e' (.new 0 1 2) := ⟨0, by rw [Service.streamBlocks, htwo]; rfl⟩
    obtain ⟨τ, w, hrun, rfl, hmoves, hs⟩ := stream_turns hengine hopens 3
    obtain ⟨hsent, hended⟩ := turns_twice id htwo 1 (by decide)
    exact ⟨_, hsent, hended,
      (stream_followed completeKeys_tagging hrun (hmoves ▸ hcalls) (by rw [htwo]; decide) hs).1⟩
  exact hstream _ _ run_lone lone_plain lone_blocks.1

end Sample

end Gleipnir
