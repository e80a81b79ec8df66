import Gleipnir.Transport.SecureConn
import Gleipnir.Validation.Lineage

/-!
# The secure channel: handshake and sessions

`kemHandshake` of `transport/secure_conn.go`. Each side sends its name in a field of 32 bytes, with its public key; the dialer
encapsulates a secret to the key it receives. Both derive the key of the channel from the secret and the two names, each from
its own as it is and from the other's as it was received. `handshake_agrees_iff` says when the two agree, and
`serverSession_safe_iff` what a peer can do to a server.
-/

namespace Gleipnir.Transport

open Atomic Framing

variable (P : ChannelPrims)

/-! ## Key encapsulation and names -/

def kyber1024PublicKeySize : Nat := 1568

def kyber1024CiphertextSize : Nat := 1568

def kyber1024PrivateKeySize : Nat := 3168

/-- `identity.Encapsulate`: the ciphertext first. The coins are drawn inside. -/
def encapsulate (coins publicKey : Bytes) : Except ConnError (Bytes × Bytes) :=
  if publicKey.length ≠ kyber1024PublicKeySize then throw .kyberInvalidKey
  else return ((P.encapsulateTo publicKey coins).1.toList, (P.encapsulateTo publicKey coins).2.toList)

/-- `identity.Decapsulate`. -/
def decapsulate (secretKey ciphertext : Bytes) : Except ConnError Bytes :=
  if secretKey.length ≠ kyber1024PrivateKeySize then throw .kyberInvalidKey
  else if ciphertext.length ≠ kyber1024CiphertextSize then throw .kyberInvalidCT
  else return (P.decapsulateTo secretKey ciphertext).toList

def padPeerID (id : Bytes) : Bytes := (Arr.copy 32 id).toList

/-- `trimPeerID`: the bytes before the first zero. -/
def trimPeerID (b : Bytes) : Bytes := b.takeWhile (· ≠ 0)

/-- The salt of `deriveKey`. -/
def kemSalt : Bytes := "gleipnir-kem-v1".toUTF8.toList

/-- `deriveKey`. -/
def deriveKey (secret id1 id2 : Bytes) : Arr 32 :=
  if bytesLess id2 id1 then P.hkdf secret kemSalt (id2 ++ id1) else P.hkdf secret kemSalt (id1 ++ id2)

/-! ## The handshake -/

/-- `PeerInfo`. -/
structure PeerInfo where
  peerID : Bytes
  addr : Bytes
  publicKey : Bytes
  deriving DecidableEq

/-- `SecureConn`, without its connection. -/
structure SecureConn where
  key : Arr 32
  deriving DecidableEq

/-- The exchange of names and public keys; the result is what the peer sent. -/
def exchange (dialer : Bool) (myPKMsg : Bytes) (c : Conn) : Except ConnError Bytes × Conn :=
  if dialer then
    match c.write myPKMsg with
    | (.error err, c) => (.error err, c)
    | (.ok (), c) => c.readFull (32 + kyber1024PublicKeySize)
  else
    match c.readFull (32 + kyber1024PublicKeySize) with
    | (.error err, c) => (.error err, c)
    | (.ok peerPKMsg, c) =>
      match c.write myPKMsg with
      | (.error err, c) => (.error err, c)
      | (.ok (), c) => (.ok peerPKMsg, c)

/-- The agreement on a secret. -/
def agree (dialer : Bool) (coins sk publicKey : Bytes) (c : Conn) : Except ConnError Bytes × Conn :=
  if dialer then
    match encapsulate P coins publicKey with
    | .error err => (.error err, c)
    | .ok (ct, ss) =>
      match c.write ct with
      | (.error err, c) => (.error err, c)
      | (.ok (), c) => (.ok ss, c)
  else
    match c.readFull kyber1024CiphertextSize with
    | (.error err, c) => (.error err, c)
    | (.ok ct, c) => (decapsulate P sk ct, c)

/-- `kemHandshake`. The slices `peerPKMsg[:32]` and `peerPKMsg[32:]` are out of range of a shorter message. -/
def kemHandshake (coins sk pk peerID : Bytes) (dialer : Bool) (c : Conn) :
    Exit (Except ConnError (SecureConn × PeerInfo)) × Conn :=
  match exchange dialer (padPeerID peerID ++ pk) c with
  | (.error err, c) => (.done (.error err), c)
  | (.ok peerPKMsg, c) =>
    if peerPKMsg.length < 32 then (.panic, c)
    else
      let peerInfo : PeerInfo := ⟨trimPeerID (peerPKMsg.take 32), [], peerPKMsg.drop 32⟩
      match agree P dialer coins sk peerInfo.publicKey c with
      | (.error err, c) => (.done (.error err), c)
      | (.ok sharedSecret, c) => (.done (.ok (⟨deriveKey P sharedSecret peerID peerInfo.peerID⟩, peerInfo)), c)

/-- `ServerHandshake`; it draws no coins. -/
def serverHandshake (sk pk peerID : Bytes) (c : Conn) : Exit (Except ConnError (SecureConn × PeerInfo)) × Conn :=
  kemHandshake P [] sk pk peerID false c

/-- `ClientHandshake`. -/
def clientHandshake (coins sk pk peerID : Bytes) (c : Conn) : Exit (Except ConnError (SecureConn × PeerInfo)) × Conn :=
  kemHandshake P coins sk pk peerID true c

/-- A server: the handshake, and then calls of `ReadMessage`. -/
def serverSession (sk pk peerID : Bytes) (n : Nat) (c : Conn) :
    Exit (Except ConnError (List (Except ConnError Bytes))) × Conn :=
  match serverHandshake P sk pk peerID c with
  | (.panic, c) => (.panic, c)
  | (.done (.error err), c) => (.done (.error err), c)
  | (.done (.ok (s, _)), c) =>
    match readMessages P s.key n c with
    | (.panic, c) => (.panic, c)
    | (.done rs, c) => (.done (.ok rs), c)

/-! ## How handshakes end -/

variable {P} {c : Conn}

theorem write_of_none (h : c.faults 0 = none) (data : Bytes) :
    c.write data = (.ok (), { c with sent := c.sent ++ data, faults := fun n => c.faults (n + 1) }) := by
  rw [Conn.write, h]

theorem write_of_some {k : Nat} (h : c.faults 0 = some k) (data : Bytes) : ∃ c', c.write data = (.error .write, c') := by
  rw [Conn.write, h]
  exact ⟨_, rfl⟩

/-- The connection after an exchange in which it has sent `my`. -/
abbrev Conn.exchanged (c : Conn) (my : Bytes) : Conn :=
  { inbound := c.inbound.drop (32 + kyber1024PublicKeySize), sent := c.sent ++ my, faults := fun n => c.faults (n + 1) }

/-- The exchange reads and writes the same in either role. -/
theorem exchange_eq (dialer : Bool) (my : Bytes) (hlength : 32 + kyber1024PublicKeySize ≤ c.inbound.length)
    (hwrites : c.faults 0 = none) :
    exchange dialer my c = (.ok (c.inbound.take (32 + kyber1024PublicKeySize)), c.exchanged my) := by
  cases dialer with
  | true =>
    rw [exchange, if_pos rfl, write_of_none hwrites]
    exact readFull_of_le hlength
  | false =>
    rw [exchange, if_neg (by simp), readFull_of_le hlength]
    dsimp only
    rw [write_of_none (c := { c with inbound := c.inbound.drop (32 + kyber1024PublicKeySize) }) hwrites]

/-- An exchange that succeeds has read and written in full. -/
theorem of_exchange_ok {dialer : Bool} {my m : Bytes} {c' : Conn} (h : exchange dialer my c = (.ok m, c')) :
    32 + kyber1024PublicKeySize ≤ c.inbound.length ∧ c.faults 0 = none := by
  unfold exchange at h
  split at h
  · rcases hw : c.write my with ⟨err | ok, c₁⟩
    · rw [hw] at h
      cases h
    · rw [hw] at h
      obtain ⟨hnone, rfl⟩ := write_ok hw
      exact ⟨(readFull_ok h).1, hnone⟩
  · rcases hr : c.readFull (32 + kyber1024PublicKeySize) with ⟨err | m', c₁⟩
    · rw [hr] at h
      cases h
    · rw [hr] at h
      obtain ⟨hle, -, rfl⟩ := readFull_ok hr
      dsimp only at h
      rcases hw : Conn.write { c with inbound := c.inbound.drop (32 + kyber1024PublicKeySize) } my with ⟨err | ok, c₂⟩
      · rw [hw] at h
        cases h
      · exact ⟨hle, (write_ok hw).1⟩

/-- What the peer has sent is read in full, if at all. -/
theorem exchange_length {dialer : Bool} {my m : Bytes} {c' : Conn} (h : exchange dialer my c = (.ok m, c')) :
    m.length = 32 + kyber1024PublicKeySize := by
  obtain ⟨hlength, hwrites⟩ := of_exchange_ok h
  rw [exchange_eq dialer my hlength hwrites] at h
  cases h
  exact List.length_take_of_le hlength

/-- **A handshake does not panic**, whatever the peer sends. -/
theorem kemHandshake_ne_panic (coins sk pk peerID : Bytes) (dialer : Bool) (c : Conn) :
    (kemHandshake P coins sk pk peerID dialer c).1 ≠ .panic := by
  unfold kemHandshake
  rcases hx : exchange dialer (padPeerID peerID ++ pk) c with ⟨err | m, c₁⟩
  · simp
  · have hlen := exchange_length hx
    dsimp only
    rw [if_neg (by rw [hlen]; omega)]
    rcases agree P dialer coins sk (m.drop 32) c₁ with ⟨err | ss, c₂⟩
    · simp
    · simp

/-- Whom a message at the head of the stream names. -/
def Conn.peerInfo (c : Conn) : PeerInfo :=
  ⟨trimPeerID (c.inbound.take 32), [], (c.inbound.drop 32).take kyber1024PublicKeySize⟩

/-- What a server needs to complete the handshake. -/
structure ServerReady (sk : Bytes) (c : Conn) : Prop where
  length : 32 + kyber1024PublicKeySize + kyber1024CiphertextSize ≤ c.inbound.length
  writes : c.faults 0 = none
  key : sk.length = kyber1024PrivateKeySize

/-- What a client needs to complete the handshake. -/
structure ClientReady (c : Conn) : Prop where
  length : 32 + kyber1024PublicKeySize ≤ c.inbound.length
  writes : c.faults 0 = none ∧ c.faults 1 = none

theorem take_drop_peer (s : Bytes) :
    (s.take (32 + kyber1024PublicKeySize)).take 32 = s.take 32 ∧
      (s.take (32 + kyber1024PublicKeySize)).drop 32 = (s.drop 32).take kyber1024PublicKeySize := by
  refine ⟨?_, ?_⟩
  · rw [List.take_take, Nat.min_eq_left (Nat.le_add_right _ _)]
  · rw [List.drop_take, Nat.add_sub_cancel_left]

theorem serverHandshake_of_ready {sk pk peerID : Bytes} (h : ServerReady sk c) :
    serverHandshake P sk pk peerID c =
      (.done (.ok (⟨deriveKey P (P.decapsulateTo sk
          ((c.inbound.drop (32 + kyber1024PublicKeySize)).take kyber1024CiphertextSize)).toList peerID c.peerInfo.peerID⟩,
        c.peerInfo)),
      { inbound := c.inbound.drop (32 + kyber1024PublicKeySize + kyber1024CiphertextSize)
        sent := c.sent ++ (padPeerID peerID ++ pk)
        faults := fun n => c.faults (n + 1) }) := by
  obtain ⟨hlength, hwrites, hkey⟩ := h
  obtain ⟨htake, hdrop⟩ := take_drop_peer c.inbound
  have hct : ((c.inbound.drop (32 + kyber1024PublicKeySize)).take kyber1024CiphertextSize).length =
      kyber1024CiphertextSize := List.length_take_of_le (by rw [List.length_drop]; omega)
  rw [serverHandshake, kemHandshake, exchange_eq _ _ (by omega) hwrites]
  dsimp only
  rw [if_neg (by rw [List.length_take]; omega), agree, if_neg (by simp), readFull_of_le (by rw [List.length_drop]; omega)]
  dsimp only
  rw [decapsulate, if_neg (not_not.2 hkey), if_neg (not_not.2 hct), htake, hdrop, List.drop_drop]
  rfl

theorem clientHandshake_of_ready {coins sk pk peerID : Bytes} (h : ClientReady c) :
    clientHandshake P coins sk pk peerID c =
      (.done (.ok (⟨deriveKey P (P.encapsulateTo c.peerInfo.publicKey coins).2.toList peerID c.peerInfo.peerID⟩, c.peerInfo)),
      { inbound := c.inbound.drop (32 + kyber1024PublicKeySize)
        sent := c.sent ++ (padPeerID peerID ++ pk) ++ (P.encapsulateTo c.peerInfo.publicKey coins).1.toList
        faults := fun n => c.faults (n + 2) }) := by
  obtain ⟨hlength, hfirst, hsecond⟩ := h
  obtain ⟨htake, hdrop⟩ := take_drop_peer c.inbound
  have hpk : ((c.inbound.drop 32).take kyber1024PublicKeySize).length = kyber1024PublicKeySize :=
    List.length_take_of_le (by rw [List.length_drop]; omega)
  rw [clientHandshake, kemHandshake, exchange_eq _ _ hlength hfirst]
  dsimp only
  rw [if_neg (by rw [List.length_take]; omega), agree, if_pos rfl, htake, hdrop, encapsulate, if_neg (not_not.2 hpk)]
  dsimp only [pure, Except.pure]
  rw [write_of_none (c := c.exchanged (padPeerID peerID ++ pk)) hsecond]
  rfl

/-- A handshake that succeeds has exchanged names and agreed on a secret. -/
theorem of_kemHandshake_ok {coins sk pk peerID : Bytes} {dialer : Bool} {x : SecureConn × PeerInfo} {c' : Conn}
    (h : kemHandshake P coins sk pk peerID dialer c = (.done (.ok x), c')) :
    ∃ m c₁ ss, exchange dialer (padPeerID peerID ++ pk) c = (.ok m, c₁) ∧
      agree P dialer coins sk (m.drop 32) c₁ = (.ok ss, c') := by
  unfold kemHandshake at h
  rcases hx : exchange dialer (padPeerID peerID ++ pk) c with ⟨err | m, c₁⟩
  · rw [hx] at h
    cases h
  · rw [hx] at h
    dsimp only at h
    rw [if_neg (by rw [exchange_length hx]; omega)] at h
    rcases ha : agree P dialer coins sk (m.drop 32) c₁ with ⟨err | ss, c₂⟩
    · rw [ha] at h
      cases h
    · rw [ha] at h
      cases h
      exact ⟨m, c₁, ss, rfl, ha⟩

theorem ServerReady.of_ok {sk pk peerID : Bytes} {x : SecureConn × PeerInfo} {c' : Conn}
    (h : serverHandshake P sk pk peerID c = (.done (.ok x), c')) : ServerReady sk c := by
  obtain ⟨m, c₁, ss, hx, ha⟩ := of_kemHandshake_ok h
  obtain ⟨hlength, hwrites⟩ := of_exchange_ok hx
  rw [exchange_eq _ _ hlength hwrites] at hx
  cases hx
  rw [agree, if_neg (by simp)] at ha
  by_cases hct : kyber1024CiphertextSize ≤ (c.inbound.drop (32 + kyber1024PublicKeySize)).length
  · rw [readFull_of_le hct] at ha
    dsimp only at ha
    rw [decapsulate] at ha
    refine ⟨by rw [List.length_drop] at hct; omega, hwrites, ?_⟩
    by_contra hkey
    rw [if_pos hkey] at ha
    cases ha
  · obtain ⟨err, herr⟩ := readFull_of_lt (c := c.exchanged (padPeerID peerID ++ pk)) (Nat.not_le.1 hct)
    rw [herr] at ha
    cases ha

theorem ClientReady.of_ok {coins sk pk peerID : Bytes} {x : SecureConn × PeerInfo} {c' : Conn}
    (h : clientHandshake P coins sk pk peerID c = (.done (.ok x), c')) : ClientReady c := by
  obtain ⟨m, c₁, ss, hx, ha⟩ := of_kemHandshake_ok h
  obtain ⟨hlength, hwrites⟩ := of_exchange_ok hx
  rw [exchange_eq _ _ hlength hwrites] at hx
  cases hx
  refine ⟨hlength, hwrites, ?_⟩
  cases hsecond : c.faults 1 with
  | none => rfl
  | some k =>
    rw [agree, if_pos rfl] at ha
    rcases hencaps : encapsulate P coins ((c.inbound.take (32 + kyber1024PublicKeySize)).drop 32) with err | ⟨ct, ss'⟩
    · rw [hencaps] at ha
      cases ha
    · obtain ⟨c₂, hfail⟩ := write_of_some (c := c.exchanged (padPeerID peerID ++ pk)) hsecond ct
      rw [hencaps] at ha
      dsimp only at ha
      rw [hfail] at ha
      cases ha

/-! ## Hostile peers -/

/-- Behind frames, and prefixes that are refused, there is a complete frame that is too short for a nonce. -/
def ShortFrame (stream : Bytes) : Prop :=
  ∃ (pieces : List Bytes) (pre body tail : Bytes), (∀ p ∈ pieces, Piece wire maxFrameSize p) ∧
    Framing.Announces wire pre body ∧ body.length < nonceSize ∧ stream = pieces.flatten ++ (pre ++ body ++ tail)

theorem readMessages_safe_iff {key : Arr 32} :
    (∀ n, (readMessages P key n c).1 ≠ .panic) ↔ ¬ ShortFrame c.inbound := by
  have hshort : ShortFrame c.inbound ↔ ∃ body, Gets wire maxFrameSize c.inbound body ∧ body.length < nonceSize := by
    simp only [gets_iff (F := wire) (by decide : 0 < 4), ShortFrame]
    constructor
    · rintro ⟨pieces, pre, body, tail, hpieces, hann, hlen, hs⟩
      have hlimit : body.length ≤ maxFrameSize := hlen.le.trans (by decide)
      exact ⟨body, ⟨pieces, pre, tail, hpieces, hann, hlimit, hs⟩, hlen⟩
    · rintro ⟨body, ⟨pieces, pre, tail, hpieces, hann, -, hs⟩, hlen⟩
      exact ⟨pieces, pre, body, tail, hpieces, hann, hlen, hs⟩
  rw [hshort, ← not_iff_not, not_not, not_forall]
  simp only [not_not, readMessages_panic_iff]
  constructor
  · rintro ⟨n, k, -, body, rest, hnext, hlen⟩
    exact ⟨body, ⟨k, rest, hnext⟩, hlen⟩
  · rintro ⟨body, ⟨k, rest, hnext⟩, hlen⟩
    exact ⟨k + 1, k, Nat.lt_succ_self k, body, rest, hnext, hlen⟩

theorem serverSession_panic_iff {sk pk peerID : Bytes} {n : Nat} : (serverSession P sk pk peerID n c).1 = .panic ↔
    ∃ s info c', serverHandshake P sk pk peerID c = (.done (.ok (s, info)), c') ∧ (readMessages P s.key n c').1 = .panic := by
  have hne := kemHandshake_ne_panic (P := P) [] sk pk peerID false c
  unfold serverSession
  rcases hh : serverHandshake P sk pk peerID c with ⟨(err | ⟨s, info⟩) | _, c₁⟩
  · simp
  · rcases hr : readMessages P s.key n c₁ with ⟨rs | _, c₂⟩
    · simp [hr]
    · simp [hr]
  · exact absurd (congrArg Prod.fst hh) hne

/-- **What a peer can do to a server.** The handshake and any number of reads return, unless the handshake can be completed and
a frame that is too short for a nonce follows. -/
theorem serverSession_safe_iff (P : ChannelPrims) (sk pk peerID : Bytes) (c : Conn) :
    (∀ n, (serverSession P sk pk peerID n c).1 ≠ .panic) ↔
      ¬ (ServerReady sk c ∧ ShortFrame (c.inbound.drop (32 + kyber1024PublicKeySize + kyber1024CiphertextSize))) := by
  constructor
  · rintro hsafe ⟨hready, hshort⟩
    have hok := @serverHandshake_of_ready P c sk pk peerID hready
    have hreads := fun n hpanic => hsafe n (serverSession_panic_iff.2 ⟨_, _, _, hok, hpanic⟩)
    exact readMessages_safe_iff.1 hreads hshort
  · intro hno n hpanic
    obtain ⟨s, info, c', hok, hpanic⟩ := serverSession_panic_iff.1 hpanic
    have hready := ServerReady.of_ok hok
    rw [serverHandshake_of_ready hready] at hok
    cases hok
    exact readMessages_safe_iff.2 (fun hshort => hno ⟨hready, hshort⟩) n hpanic

/-! ## Agreement -/

/-- A name that its field holds: at most 32 bytes, none of them zero. -/
def Plain (id : Bytes) : Prop := id.length ≤ 32 ∧ 0 ∉ id

instance instDecidablePlain (id : Bytes) : Decidable (Plain id) := inferInstanceAs (Decidable (_ ∧ _))

/-- A key pair for which decapsulation gives back what was encapsulated. -/
structure ChannelPrims.KeyPair (P : ChannelPrims) (pk sk : Bytes) : Prop where
  public_length : pk.length = kyber1024PublicKeySize
  secret_length : sk.length = kyber1024PrivateKeySize
  correct : ∀ coins, P.decapsulateTo sk (P.encapsulateTo pk coins).1.toList = (P.encapsulateTo pk coins).2

/-- Both ends derive the key from the two names in the same order. -/
theorem deriveKey_comm (secret id1 id2 : Bytes) : deriveKey P secret id1 id2 = deriveKey P secret id2 id1 := by
  unfold deriveKey
  cases h : bytesLess id2 id1 with
  | true => rw [bytesLess_asymm h, if_pos rfl, if_neg (by simp)]
  | false =>
    cases h' : bytesLess id1 id2 with
    | true => rw [if_neg (by simp), if_pos rfl]
    | false => rw [eq_of_not_bytesLess h h']

theorem length_padPeerID (id : Bytes) : (padPeerID id).length = 32 := List.Vector.toList_length _

/-- **Names on the wire**: a name is received as it was sent exactly if its field holds it. -/
theorem trim_pad_eq_iff {id : Bytes} : trimPeerID (padPeerID id) = id ↔ Plain id := by
  have hpad : padPeerID id = (id ++ List.replicate 32 0).take 32 := rfl
  constructor
  · intro h
    refine ⟨?_, fun hzero => ?_⟩
    · rw [← h, ← length_padPeerID id]
      exact (List.takeWhile_prefix _).length_le
    · rw [← h] at hzero
      simpa using List.all_eq_true.1 (List.all_takeWhile (l := padPeerID id)) 0 hzero
  · rintro ⟨hlen, hzero⟩
    obtain ⟨k, hk⟩ := Nat.exists_eq_add_of_le hlen
    have hsplit : padPeerID id = id ++ List.replicate k 0 := by
      rw [hpad, List.take_append, List.take_of_length_le hlen, List.take_replicate]
      congr 2
      omega
    have hall : ∀ b ∈ id, decide (b ≠ 0) = true := by
      intro b hb
      rw [decide_eq_true_eq]
      rintro rfl
      exact hzero hb
    rw [trimPeerID, hsplit, List.takeWhile_append_of_pos hall]
    cases k with
    | zero => simp
    | succ k => simp [List.replicate_succ]

/-- A name and a public key, as they are received. -/
theorem peerInfo_of_message {id pk rest : Bytes} (hpk : pk.length = kyber1024PublicKeySize)
    (hin : c.inbound = padPeerID id ++ pk ++ rest) :
    c.peerInfo = ⟨trimPeerID (padPeerID id), [], pk⟩ ∧ c.inbound.drop (32 + kyber1024PublicKeySize) = rest := by
  have hlen : (padPeerID id ++ pk).length = 32 + kyber1024PublicKeySize := by
    rw [List.length_append, length_padPeerID, hpk]
  refine ⟨?_, by rw [hin, List.drop_left' hlen]⟩
  rw [Conn.peerInfo, hin, List.append_assoc, List.take_left' (length_padPeerID id), List.drop_left' (length_padPeerID id),
    List.take_left' hpk]

/-- **Agreement.** Two ends of an unmodified connection that complete the handshake have the same key and know each other's name
exactly if both names fit the field they are sent in. -/
theorem handshake_agrees_iff {coins skC pkC idC skS pkS idS : Bytes} (hC : pkC.length = kyber1024PublicKeySize)
    (hS : P.KeyPair pkS skS) {c c' s s' : Conn} {connC connS : SecureConn} {infoC infoS : PeerInfo}
    (hclient : clientHandshake P coins skC pkC idC c = (.done (.ok (connC, infoC)), c'))
    (hserver : serverHandshake P skS pkS idS s = (.done (.ok (connS, infoS)), s'))
    {fromC fromS laterC laterS : Bytes} (hsentC : c'.sent = c.sent ++ fromC) (hsentS : s'.sent = s.sent ++ fromS)
    (hinC : c.inbound = fromS ++ laterS) (hinS : s.inbound = fromC ++ laterC) :
    (connC.key = connS.key ∧ infoC.peerID = idS ∧ infoS.peerID = idC) ↔ Plain idC ∧ Plain idS := by
  rw [clientHandshake_of_ready (ClientReady.of_ok hclient)] at hclient
  rw [serverHandshake_of_ready (ServerReady.of_ok hserver)] at hserver
  cases hclient
  cases hserver
  -- what each end receives is what the other has sent
  rw [List.append_assoc] at hsentC
  rw [← List.append_cancel_left hsentS] at hinC
  rw [← List.append_cancel_left hsentC] at hinS
  obtain ⟨hpeerS, -⟩ := peerInfo_of_message hS.public_length hinC
  rw [hpeerS, List.append_assoc (padPeerID idC ++ pkC)] at hinS
  obtain ⟨hpeerC, hrest⟩ := peerInfo_of_message hC hinS
  have hct : (s.inbound.drop (32 + kyber1024PublicKeySize)).take kyber1024CiphertextSize =
      (P.encapsulateTo pkS coins).1.toList := by
    rw [hrest]
    exact List.take_left' (List.Vector.toList_length _)
  rw [hpeerS, hpeerC, hct, hS.correct]
  dsimp only
  constructor
  · rintro ⟨-, hidS, hidC⟩
    exact ⟨trim_pad_eq_iff.1 hidC, trim_pad_eq_iff.1 hidS⟩
  · rintro ⟨hidC, hidS⟩
    rw [trim_pad_eq_iff.2 hidC, trim_pad_eq_iff.2 hidS]
    exact ⟨deriveKey_comm _ _ _, rfl, rfl⟩

end Gleipnir.Transport

namespace Gleipnir.Sample

open Atomic Transport Framing

def kemPublicKey : Bytes := List.replicate 1568 0

def kemSecretKey : Bytes := List.replicate 3168 0

theorem channel_keyPair : channel.KeyPair kemPublicKey kemSecretKey :=
  ⟨List.length_replicate, List.length_replicate, fun _ => rfl⟩

/-- What a server with this name sends to a client. -/
def toClient (idS : Bytes) : Conn := carrying (padPeerID idS ++ kemPublicKey)

/-- What a client with this name sends to a server. -/
def toServer (idC : Bytes) : Conn := carrying (padPeerID idC ++ kemPublicKey ++ (Arr.zero 1568).toList)

theorem clientReady_toClient (idS : Bytes) : ClientReady (toClient idS) where
  length := by
    rw [toClient, carrying, List.length_append, length_padPeerID, channel_keyPair.public_length]
  writes := ⟨rfl, rfl⟩

theorem serverReady_toServer (idC : Bytes) : ServerReady kemSecretKey (toServer idC) where
  length := by
    rw [toServer, carrying, List.length_append, List.length_append, length_padPeerID, channel_keyPair.public_length,
      List.Vector.toList_length]
    rfl
  writes := rfl
  key := channel_keyPair.secret_length

theorem short_names_agree : ∃ connC infoC c' connS infoS s',
    clientHandshake channel [] kemSecretKey kemPublicKey [97] (toClient [98]) = (.done (.ok (connC, infoC)), c') ∧
    serverHandshake channel kemSecretKey kemPublicKey [98] (toServer [97]) = (.done (.ok (connS, infoS)), s') ∧
    connC.key = connS.key ∧ infoC.peerID = [98] ∧ infoS.peerID = [97] := by
  have hclient := @clientHandshake_of_ready channel _ [] kemSecretKey kemPublicKey [97] (clientReady_toClient [98])
  have hserver := @serverHandshake_of_ready channel _ kemSecretKey kemPublicKey [98] (serverReady_toServer [97])
  refine ⟨_, _, _, _, _, _, hclient, hserver, ?_⟩
  exact (handshake_agrees_iff channel_keyPair.public_length channel_keyPair hclient hserver (List.nil_append _).symm
    (List.nil_append _).symm (List.append_nil _).symm (List.append_nil _).symm).2 (by decide)

/-- One byte more than the field of a name has. -/
def longName : Bytes := List.replicate 33 97

/-- The keys that a client with the long name and its server derive. -/
def longNameKeys : Computed (deriveKey channel (Arr.zero 32).toList longName [98],
    deriveKey channel (Arr.zero 32).toList [98] (List.replicate 32 97)) fun x => x.1 ≠ x.2 := computed _ (by decide +kernel)

/-- The server takes the client for another one, and the two have different keys. -/
theorem long_name_disagrees : ∃ connC infoC c' connS infoS s',
    clientHandshake channel [] kemSecretKey kemPublicKey longName (toClient [98]) = (.done (.ok (connC, infoC)), c') ∧
    serverHandshake channel kemSecretKey kemPublicKey [98] (toServer longName) = (.done (.ok (connS, infoS)), s') ∧
    (toServer longName).inbound = c'.sent ∧ (toClient [98]).inbound = s'.sent ∧
    infoS.peerID ≠ longName ∧ connC.key ≠ connS.key := by
  have hclient := @clientHandshake_of_ready channel _ [] kemSecretKey kemPublicKey longName (clientReady_toClient [98])
  have hserver := @serverHandshake_of_ready channel _ kemSecretKey kemPublicKey [98] (serverReady_toServer longName)
  obtain ⟨hatServer, -⟩ := @peerInfo_of_message (toServer longName) longName kemPublicKey (Arr.zero 1568).toList
    channel_keyPair.public_length rfl
  obtain ⟨hatClient, -⟩ := @peerInfo_of_message (toClient [98]) [98] kemPublicKey []
    channel_keyPair.public_length (List.append_nil _).symm
  have hlong : trimPeerID (padPeerID longName) = List.replicate 32 97 := by decide
  have hshort : trimPeerID (padPeerID [98]) = [98] := by decide
  refine ⟨_, _, _, _, _, _, hclient, hserver, rfl, rfl, ?_, ?_⟩
  · rw [hatServer]
    dsimp only
    rw [hlong]
    decide
  · rw [hatServer, hatClient]
    dsimp only
    rw [hlong, hshort]
    obtain ⟨x, hx, hne⟩ := longNameKeys
    rw [hx] at hne
    exact hne

/-- A handshake, and a frame of length zero. -/
def emptyFrame : Conn := carrying (List.replicate 3168 0 ++ [0, 0, 0, 0])

theorem empty_frame_panics : (serverSession channel kemSecretKey kemPublicKey [98] 1 emptyFrame).1 = .panic := by
  have hready : ServerReady kemSecretKey emptyFrame := by
    refine ⟨?_, rfl, channel_keyPair.secret_length⟩
    rw [emptyFrame, carrying, List.length_append, List.length_replicate]
    decide
  have hrest : emptyFrame.inbound.drop (32 + kyber1024PublicKeySize + kyber1024CiphertextSize) = [0, 0, 0, 0] :=
    List.drop_left' List.length_replicate
  refine serverSession_panic_iff.2 ⟨_, _, _, serverHandshake_of_ready hready, ?_⟩
  refine (readMessages_panic_iff _ _).2 ⟨0, Nat.one_pos, [], [], ?_, by decide⟩
  rw [hrest]
  rfl

end Gleipnir.Sample
