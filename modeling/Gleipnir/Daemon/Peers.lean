import Gleipnir.Consensus.Engine
import Gleipnir.Lib.Guard
import Gleipnir.Sample
import Mathlib.Data.List.DropRight

/-!
# The peers of a daemon

`cmd/provenanced/main.go`: the list of validators that a node is given on its command line, as `addr=uid-file` entries.
Reading a file and decoding the identity in it are parameters.

`parsePeers_ok`: the list starts with the node itself, whoever else is on it, so that no two nodes of a network have the same
list. Addresses are compared with those before, identities only with that of the node: two entries whose files hold one
identity are both taken, and the list names each validator once exactly if the files do (`parsePeers_distinct_iff`).
-/

namespace Gleipnir

open Guard

/-! ## Strings -/

/-- `unicode.IsSpace`. -/
def isSpace (c : Char) : Bool :=
  (9 ≤ c.toNat && c.toNat ≤ 13) || (0x2000 ≤ c.toNat && c.toNat ≤ 0x200a) ||
    [0x20, 0x85, 0xa0, 0x1680, 0x2028, 0x2029, 0x202f, 0x205f, 0x3000].contains c.toNat

/-- `strings.TrimSpace`. -/
def trimSpace (s : List Char) : List Char := (s.dropWhile isSpace).rdropWhile isSpace

/-- `splitList`: the parts between commas, without the blank ones. -/
def splitList (s : String) : List String :=
  ((s.toList.splitOn ',').map trimSpace).filterMap fun p => if p = [] then none else some (String.ofList p)

/-- `strings.Cut` at the first `=`. -/
def cutEntry (entry : String) : Option (String × String) :=
  match entry.toList.dropWhile (· != '=') with
  | [] => none
  | _ :: after => some (String.ofList (entry.toList.takeWhile (· != '=')), String.ofList after)

/-! ## The list -/

/-- The files of a node, and the decoding of the identity in one. -/
structure UIDFiles where
  readFile : String → Except String Bytes
  unmarshalCBOR : Bytes → Except String UIDZeroSoulbound

/-- The errors of `parsePeers`, with what their texts name. -/
inductive PeersError where
  | ownIdentity
  | notPair (entry : String)
  | listedTwice (addr : String)
  | peer (addr err : String)
  | self (addr id : String)
  | alone
  deriving DecidableEq

/-- An entry of the list, given the addresses seen before. -/
def parsePeer (files : UIDFiles) (selfUID : UIDZeroSoulbound) (seen : List String) (entry : String) :
    Except PeersError Peer := do
  let some (addr, uidPath) := cutEntry entry | throw (.notPair entry)
  if addr ∈ seen then throw (.listedTwice addr)
  let data ← (files.readFile uidPath).mapError (.peer addr)
  let peerUID ← (files.unmarshalCBOR data).mapError (.peer addr)
  if peerUID.id = selfUID.id then throw (.self addr peerUID.id)
  return ⟨peerUID, addr, true⟩

/-- The loop of `parsePeers` over the entries. -/
def parseEntries (files : UIDFiles) (selfUID : UIDZeroSoulbound) :
    List String → List Peer → List String → Except PeersError (List Peer)
  | [], peers, _ => .ok peers
  | entry :: entries, peers, seen => do
    let p ← parsePeer files selfUID seen entry
    parseEntries files selfUID entries (peers ++ [p]) (p.addr :: seen)

/-- `parsePeers`. -/
def parsePeers (files : UIDFiles) (spec : String) (selfUID : Option UIDZeroSoulbound) (selfAddr : String) :
    Except PeersError (List Peer) := do
  let spec := trimSpace spec.toList
  if spec = [] then return []
  let some uid := selfUID | throw .ownIdentity
  let peers ← parseEntries files uid (splitList (String.ofList spec)) [⟨uid, selfAddr, true⟩] [selfAddr]
  if peers.length < 2 then throw .alone
  return peers

/-! ## What is on it -/

section Parsed

variable {files : UIDFiles} {uid : UIDZeroSoulbound}

variable {seen entries : List String} {entry spec selfAddr : String} {before after peers : List Peer}
  {selfUID : Option UIDZeroSoulbound}

theorem parsePeer_ok {p : Peer} (h : parsePeer files uid seen entry = .ok p) : p.addr ∉ seen ∧ p.uid.id ≠ uid.id := by
  unfold parsePeer at h
  split at h
  · simp only [↓throw_bind, ite_throw_eq_ok, bind_eq_ok, pure_eq_ok] at h
    obtain ⟨hseen, data, -, peerUID, -, hself, rfl⟩ := h
    exact ⟨hseen, hself⟩
  · cases h

/-- The loop adds peers at new addresses, none of them the node itself. -/
theorem parseEntries_ok (h : parseEntries files uid entries before seen = .ok after) (hseen : ∀ p ∈ before, p.addr ∈ seen)
    (hd : (before.map (·.addr)).Nodup) :
    ∃ added, after = before ++ added ∧ (∀ p ∈ added, p.uid.id ≠ uid.id) ∧ (after.map (·.addr)).Nodup := by
  induction entries generalizing before seen with
  | nil =>
    obtain rfl := Except.ok.inj h
    exact ⟨[], (List.append_nil _).symm, fun _ hp => absurd hp List.not_mem_nil, hd⟩
  | cons entry entries ih =>
    obtain ⟨p, hp, hrest⟩ := bind_eq_ok.1 h
    obtain ⟨hnew, hother⟩ := parsePeer_ok hp
    have hseen' : ∀ p' ∈ before ++ [p], p'.addr ∈ p.addr :: seen := by
      intro p' hp'
      rcases List.mem_append.1 hp' with hp' | hp'
      · exact List.mem_cons_of_mem _ (hseen p' hp')
      · rw [List.mem_singleton.1 hp']
        exact List.mem_cons_self
    have hd' : ((before ++ [p]).map (·.addr)).Nodup := by
      rw [List.map_append, List.map_singleton, List.nodup_append_comm, List.singleton_append, List.nodup_cons]
      refine ⟨fun hmem => ?_, hd⟩
      obtain ⟨p', hp', haddr⟩ := List.mem_map.1 hmem
      exact hnew (haddr ▸ hseen p' hp')
    obtain ⟨added, rfl, hadded, hnodup⟩ := ih hrest hseen' hd'
    refine ⟨p :: added, List.append_assoc _ _ _, ?_, hnodup⟩
    rintro p' (_ | ⟨_, hp'⟩)
    · exact hother
    · exact hadded p' hp'

/-- A list that is not empty comes from the loop, with more on it than the node. -/
theorem parsePeers_entries (h : parsePeers files spec selfUID selfAddr = .ok peers) (hne : peers ≠ []) :
    ∃ uid, selfUID = some uid ∧ parseEntries files uid (splitList (String.ofList (trimSpace spec.toList)))
      [⟨uid, selfAddr, true⟩] [selfAddr] = .ok peers ∧ ¬ peers.length < 2 := by
  unfold parsePeers at h
  dsimp only at h
  split at h
  · exact absurd (pure_eq_ok.1 h).symm hne
  · split at h
    · next uid =>
      simp only [↓throw_bind, bind_eq_ok, ite_throw_eq_ok, pure_eq_ok] at h
      obtain ⟨after, hentries, hlen, rfl⟩ := h
      exact ⟨uid, rfl, hentries, hlen⟩
    · cases h

/-- **The list of a daemon**: the node itself first, then others at addresses of their own, at least one of them. -/
theorem parsePeers_ok (h : parsePeers files spec selfUID selfAddr = .ok peers) (hne : peers ≠ []) :
    ∃ uid others, selfUID = some uid ∧ peers = ⟨uid, selfAddr, true⟩ :: others ∧ others ≠ [] ∧
      (∀ p ∈ others, p.uid.id ≠ uid.id) ∧ (peers.map (·.addr)).Nodup := by
  obtain ⟨uid, rfl, hentries, hlen⟩ := parsePeers_entries h hne
  obtain ⟨others, rfl, hothers, hnodup⟩ := parseEntries_ok hentries (by simp) (by simp)
  refine ⟨uid, others, rfl, rfl, ?_, hothers, hnodup⟩
  rintro rfl
  exact hlen (by simp)

/-! ## Who is named -/

/-- The identity in the file of an entry. -/
def entryUID (files : UIDFiles) (entry : String) : Option UIDZeroSoulbound := do
  let (_, uidPath) ← cutEntry entry
  let data ← (files.readFile uidPath).toOption
  (files.unmarshalCBOR data).toOption

/-- The identities that the entries of a specification name, in order. -/
def namedIDs (files : UIDFiles) (spec : String) : List String :=
  ((splitList (String.ofList (trimSpace spec.toList))).filterMap (entryUID files)).map (·.id)

theorem toOption_of_mapError {ε ε' α : Type} {x : Except ε α} {f : ε → ε'} {a : α} (h : x.mapError f = .ok a) :
    x.toOption = some a := by
  cases x with
  | error err => cases h
  | ok b =>
    obtain rfl := Except.ok.inj h
    rfl

theorem parsePeer_uid {p : Peer} (h : parsePeer files uid seen entry = .ok p) : entryUID files entry = some p.uid := by
  unfold parsePeer at h
  split at h
  · next addr uidPath hcut =>
    simp only [↓throw_bind, ite_throw_eq_ok, bind_eq_ok, pure_eq_ok] at h
    obtain ⟨-, data, hdata, peerUID, huid, -, rfl⟩ := h
    simp [entryUID, hcut, toOption_of_mapError hdata, toOption_of_mapError huid]
  · cases h

/-- The loop adds a peer for every entry, with the identity that the entry names. -/
theorem parseEntries_ids (h : parseEntries files uid entries before seen = .ok after) :
    after.map (·.uid.id) = before.map (·.uid.id) ++ (entries.filterMap (entryUID files)).map (·.id) := by
  induction entries generalizing before seen with
  | nil =>
    obtain rfl := Except.ok.inj h
    exact (List.append_nil _).symm
  | cons entry entries ih =>
    obtain ⟨p, hp, hrest⟩ := bind_eq_ok.1 h
    rw [ih hrest, List.filterMap_cons_some (parsePeer_uid hp), List.map_append, List.map_singleton, List.append_assoc,
      List.singleton_append, List.map_cons]

/-- The list is the node and everyone who is named. -/
theorem parsePeers_ids (h : parsePeers files spec selfUID selfAddr = .ok peers) (hne : peers ≠ []) :
    ∃ uid, selfUID = some uid ∧ peers.map (·.uid.id) = uid.id :: namedIDs files spec := by
  obtain ⟨uid, rfl, hentries, -⟩ := parsePeers_entries h hne
  refine ⟨uid, rfl, ?_⟩
  rw [parseEntries_ids hentries, namedIDs, List.map_singleton, List.singleton_append]

/-- **No doubled votes.** The node is on the list once, and the validators on it are different, exactly if the files of the
entries hold different identities. -/
theorem parsePeers_distinct_iff {spec selfAddr : String} {selfUID : Option UIDZeroSoulbound} {peers : List Peer}
    (h : parsePeers files spec selfUID selfAddr = .ok peers) (hne : peers ≠ []) :
    (∃ uid, selfUID = some uid ∧ (peers.map (·.uid.id)).count uid.id = 1 ∧ (peers.map (·.uid.id)).Nodup) ↔
      (namedIDs files spec).Nodup := by
  obtain ⟨uid, rfl, hids⟩ := parsePeers_ids h hne
  obtain ⟨_, others, hself, hpeers, -, hothers, -⟩ := parsePeers_ok h hne
  obtain rfl := Option.some.inj hself
  have hnamed : others.map (·.uid.id) = namedIDs files spec := by
    rw [hpeers] at hids
    exact (List.cons.inj hids).2
  -- no entry names the node itself
  have hnot : uid.id ∉ namedIDs files spec := by
    rw [← hnamed]
    intro hmem
    obtain ⟨p, hp, heq⟩ := List.mem_map.1 hmem
    exact hothers p hp heq
  rw [hids]
  constructor
  · rintro ⟨_, -, -, hnodup⟩
    exact (List.nodup_cons.1 hnodup).2
  · intro hnodup
    exact ⟨uid, rfl, by rw [List.count_cons_self, List.count_eq_zero_of_not_mem hnot], List.nodup_cons.2 ⟨hnot, hnodup⟩⟩

end Parsed

namespace Sample

/-- A file holds the identity of its first letter. -/
def letterFiles : UIDFiles where
  readFile := fun path => .ok path.toUTF8.toList
  unmarshalCBOR := fun data => .ok (uid (data.headD 0))

/-- The list of the node `1` at the address `a`. -/
def listOf (spec : String) : Except PeersError (List Peer) := parsePeers letterFiles spec (some (uid 1)) "a"

theorem listed {spec : String} {uids : List UIDZeroSoulbound}
    (h : (listOf spec).toOption.map (·.map (·.uid)) = some uids) :
    ∃ peers, listOf spec = .ok peers ∧ peers.map (·.uid) = uids := by
  obtain ⟨peers, hpeers, huids⟩ := Option.map_eq_some_iff.1 h
  refine ⟨peers, ?_, huids⟩
  cases hlist : listOf spec with
  | error err =>
    rw [hlist] at hpeers
    cases hpeers
  | ok peers' =>
    rw [hlist] at hpeers
    rw [Option.some.inj hpeers]

/-- Three validators; and two, one of them in two entries. -/
def lists : Computed (listOf "b=x,c=y", listOf "b=x,c=x") fun x =>
    x.1.toOption.map (·.map (·.uid)) = some [uid 1, uid 120, uid 121] ∧
      x.2.toOption.map (·.map (·.uid)) = some [uid 1, uid 120, uid 120] :=
  computed _ (by decide +kernel)

/-- Files with identities of their own give a list without doubled votes. -/
theorem own_files_distinct : ∃ peers, listOf "b=x,c=y" = .ok peers ∧ peers.length = 3 ∧
    (namedIDs letterFiles "b=x,c=y").Nodup ∧
    ∃ self, some (uid 1) = some self ∧ (peers.map (·.uid.id)).count self.id = 1 ∧ (peers.map (·.uid.id)).Nodup := by
  obtain ⟨x, hx, h, -⟩ := lists
  simp only [hx] at h
  obtain ⟨peers, hpeers, huids⟩ := listed h
  have hne : peers ≠ [] := by
    rintro rfl
    cases huids
  have hnamed : (namedIDs letterFiles "b=x,c=y").Nodup := by decide +kernel
  refine ⟨peers, hpeers, ?_, hnamed, (parsePeers_distinct_iff hpeers hne).2 hnamed⟩
  rw [← List.length_map, huids]
  rfl

/-- One file in two entries: its validator is on the list twice. -/
theorem one_file_twice : ∃ peers, listOf "b=x,c=x" = .ok peers ∧ peers ≠ [] ∧ ¬ (peers.map (·.uid.id)).Nodup := by
  obtain ⟨x, hx, -, h⟩ := lists
  simp only [hx] at h
  obtain ⟨peers, hpeers, huids⟩ := listed h
  have hids : peers.map (·.uid.id) = [(uid 1).id, (uid 120).id, (uid 120).id] := by
    have hmap := congrArg (List.map UIDZeroSoulbound.id) huids
    rwa [List.map_map] at hmap
  refine ⟨peers, hpeers, ?_, ?_⟩
  · rintro rfl
    cases huids
  · rw [hids]
    simp

end Sample

end Gleipnir
