import Gleipnir.Identity
import Gleipnir.Lib.Argmin
import Mathlib.Data.List.Lex
import Mathlib.Data.List.Forall2

/-!
# Proposer selection

`consensus/triad.go`. The loop of `selectProposerVRF` keeps a running minimum of the VRF outputs and fails at the first
peer without a verifying proof. `selectFrom_some` separates the two: the loop succeeds when every peer has a ballot, and
then it is the running minimum `Argmin.minBy` over the ballots, compared as byte strings (`lessThan_iff`).
-/

namespace Gleipnir

variable (X : Prims)

/-- The errors of `SelectProposerVRF`, with the peer they name. -/
inductive ElectionError where
  | vrfSelectionFailed
  | noProof (pid : String)
  | invalidProof (pid : String)
  deriving DecidableEq

/-- `map[string]*identity.VRFProof`; a pointer in it may be nil. -/
abbrev VRFProofs : Type := AList fun _ : String => Option VRFProof

/-- `makeAlpha`: the VRF input of a cycle. -/
def makeAlpha (cycle : UInt64) (stateRoot : Bytes) : Bytes := le64 cycle ++ stateRoot

/-- `lessThan`. -/
def lessThan : Bytes → Bytes → Bool
  | [], [] => false
  | [], _ :: _ => true
  | _ :: _, [] => false
  | a :: as, b :: bs => if a ≠ b then a < b else lessThan as bs

/-- A peer with its proof and the VRF output the proof carries. -/
structure Ballot where
  peer : Peer
  proof : VRFProof
  gamma : Arr 32

/-- What the loop does with one peer before it compares. -/
def ballot (alpha : Bytes) (peerProofs : VRFProofs) (p : Peer) : Except ElectionError Ballot :=
  match peerProofs.lookup p.uid.id with
  | none => .error (.noProof p.uid.id)
  | some none => .error (.noProof p.uid.id)
  | some (some proof) =>
    match p.uid.vrfVerifyProof X alpha proof with
    | none => .error (.invalidProof p.uid.id)
    | some gamma => .ok ⟨p, proof, gamma⟩

/-- The comparison of the loop. -/
def better : Option Ballot → Ballot → Ballot
  | none, b => b
  | some best, b => if lessThan b.gamma.toList best.gamma.toList then b else best

/-- The loop of `SelectProposerVRF`. -/
def selectFrom (alpha : Bytes) (peerProofs : VRFProofs) : List Peer → Option Ballot → Except ElectionError (Option Ballot)
  | [], best => .ok best
  | p :: ps, best =>
    match ballot X alpha peerProofs p with
    | .error err => .error err
    | .ok b => selectFrom alpha peerProofs ps (some (better best b))

/-- `SelectProposerVRF`. -/
def selectProposerVRF (peers : List Peer) (alpha : Bytes) (peerProofs : VRFProofs) :
    Except ElectionError (Peer × VRFProof) :=
  match peers with
  | [] => .error .vrfSelectionFailed
  | _ :: _ =>
    match selectFrom X alpha peerProofs peers none with
    | .error err => .error err
    | .ok none => .error .vrfSelectionFailed
    | .ok (some best) => .ok (best.peer, best.proof)

/-- `SelectProposer`. -/
def selectProposer (peers : List Peer) (cycle : UInt64) (stateRoot : Bytes) (peerProofs : VRFProofs) :
    Except ElectionError (Peer × VRFProof) :=
  selectProposerVRF X peers (makeAlpha cycle stateRoot) peerProofs

/-! ## The loop as a running minimum -/

/-- A byte string as the list of its values, ordered lexicographically. -/
def byteValues (bs : Bytes) : List Nat := bs.map UInt8.toNat

theorem byteValues_inj {as bs : Bytes} (h : byteValues as = byteValues bs) : as = bs :=
  List.map_injective_iff.2 (fun _ _ h => UInt8.toNat_inj.1 h) h

/-- The hand-written comparison is the lexicographic order. -/
theorem lessThan_iff : ∀ as bs : Bytes, lessThan as bs = true ↔ byteValues as < byteValues bs
  | [], [] => by simp [lessThan, byteValues]
  | [], b :: bs => by simp [lessThan, byteValues]
  | a :: as, [] => by simp [lessThan, byteValues]
  | a :: as, b :: bs => by
    have ih := lessThan_iff as bs
    simp only [byteValues, List.map_cons, List.cons_lt_cons_iff, lessThan] at ih ⊢
    by_cases h : a = b
    · subst h
      simpa using ih
    · have hne : a.toNat ≠ b.toNat := fun hab => h (UInt8.toNat_inj.1 hab)
      simp [h, hne, UInt8.lt_iff_toNat_lt]

/-- The key of a ballot. -/
def Ballot.key (b : Ballot) : List Nat := byteValues b.gamma.toList

theorem better_some (best b : Ballot) : better (some best) b = Argmin.pick Ballot.key best b := by
  by_cases h : b.key < best.key
  · rw [better, if_pos ((lessThan_iff _ _).2 h), Argmin.pick, if_pos h]
  · rw [better, if_neg fun h' => h ((lessThan_iff _ _).1 h'), Argmin.pick, if_neg h]

variable {alpha : Bytes} {peerProofs : VRFProofs} {b : Ballot} {peers : List Peer} {bs : List Ballot}

theorem ballot_ok {p : Peer} :
    ballot X alpha peerProofs p = .ok b ↔
      b.peer = p ∧ peerProofs.lookup p.uid.id = some (some b.proof) ∧
        p.uid.vrfVerifyProof X alpha b.proof = some b.gamma := by
  obtain ⟨q, proof, gamma⟩ := b
  cases hl : peerProofs.lookup p.uid.id with
  | none => simp [ballot, hl]
  | some o =>
    cases o with
    | none => simp [ballot, hl]
    | some proof' =>
      cases hv : p.uid.vrfVerifyProof X alpha proof' with
      | none =>
        simp only [ballot, hl, hv, reduceCtorEq, Option.some.injEq, false_iff, not_and]
        rintro - rfl h
        rw [hv] at h
        cases h
      | some g =>
        simp only [ballot, hl, hv, Except.ok.injEq, Ballot.mk.injEq, Option.some.injEq]
        constructor
        · rintro ⟨rfl, rfl, rfl⟩
          exact ⟨rfl, rfl, hv⟩
        · rintro ⟨rfl, rfl, hg⟩
          rw [hv] at hg
          exact ⟨rfl, rfl, Option.some.inj hg⟩

/-- `bs` are the ballots of `peers`. -/
abbrev Ballots (alpha : Bytes) (peerProofs : VRFProofs) (peers : List Peer) (bs : List Ballot) : Prop :=
  List.Forall₂ (fun p b => ballot X alpha peerProofs p = .ok b) peers bs

variable {X} in
theorem Ballots.of_peer (h : Ballots X alpha peerProofs peers bs) {p : Peer} (hp : p ∈ peers) :
    ∃ b ∈ bs, ballot X alpha peerProofs p = .ok b := by
  induction h with
  | nil => cases hp
  | cons hb _ ih =>
    rcases List.mem_cons.1 hp with rfl | hp
    · exact ⟨_, List.mem_cons_self .., hb⟩
    · obtain ⟨b, hb, hpb⟩ := ih hp
      exact ⟨b, List.mem_cons_of_mem _ hb, hpb⟩

variable {X} in
theorem Ballots.of_ballot (h : Ballots X alpha peerProofs peers bs) (hb : b ∈ bs) :
    ∃ p ∈ peers, ballot X alpha peerProofs p = .ok b := by
  induction h with
  | nil => cases hb
  | cons hpb _ ih =>
    rcases List.mem_cons.1 hb with rfl | hb
    · exact ⟨_, List.mem_cons_self .., hpb⟩
    · obtain ⟨p, hp, hpb⟩ := ih hb
      exact ⟨p, List.mem_cons_of_mem _ hp, hpb⟩

/-- The loop from a ballot succeeds when every further peer has one, with the running minimum. -/
theorem selectFrom_some : ∀ {ps : List Peer} {best : Ballot} {r : Option Ballot},
    selectFrom X alpha peerProofs ps (some best) = .ok r ↔
      ∃ bs, Ballots X alpha peerProofs ps bs ∧ r = some (Argmin.minBy Ballot.key best bs)
  | [], best, r => by simp [selectFrom, Argmin.minBy, eq_comm]
  | p :: ps, best, r => by
    simp only [selectFrom]
    cases hb : ballot X alpha peerProofs p with
    | error err =>
      simp only [reduceCtorEq, false_iff, not_exists, not_and]
      rintro bs hbs
      obtain ⟨b, bs', hb', -, rfl⟩ := List.forall₂_cons_left_iff.1 hbs
      rw [hb] at hb'
      cases hb'
    | ok b =>
      simp only [better_some, selectFrom_some]
      constructor
      · rintro ⟨bs, hbs, rfl⟩
        exact ⟨b :: bs, .cons hb hbs, rfl⟩
      · rintro ⟨bs, hbs, rfl⟩
        obtain ⟨b', bs', hb', hbs', rfl⟩ := List.forall₂_cons_left_iff.1 hbs
        rw [hb] at hb'
        cases hb'
        exact ⟨bs', hbs', rfl⟩

/-- **The selection is the running minimum of the ballots**, and it succeeds when there are peers and all of them have
one. -/
theorem selectProposerVRF_ok {r : Peer × VRFProof} :
    selectProposerVRF X peers alpha peerProofs = .ok r ↔
      ∃ b bs, Ballots X alpha peerProofs peers (b :: bs) ∧
        r = ((Argmin.minBy Ballot.key b bs).peer, (Argmin.minBy Ballot.key b bs).proof) := by
  cases peers with
  | nil => simp [selectProposerVRF]
  | cons p ps =>
    simp only [selectProposerVRF, selectFrom, Ballots, List.forall₂_cons]
    cases hb : ballot X alpha peerProofs p with
    | error err => simp
    | ok b =>
      simp only [better]
      constructor
      · intro h
        cases hs : selectFrom X alpha peerProofs ps (some b) with
        | error err => simp [hs] at h
        | ok o =>
          obtain ⟨bs, hbs, rfl⟩ := (selectFrom_some X).1 hs
          simp only [hs, Except.ok.injEq] at h
          exact ⟨b, bs, ⟨rfl, hbs⟩, h.symm⟩
      · rintro ⟨b', bs, ⟨hb', hbs⟩, rfl⟩
        cases hb'
        rw [(selectFrom_some X).2 ⟨bs, hbs, rfl⟩]

end Gleipnir
