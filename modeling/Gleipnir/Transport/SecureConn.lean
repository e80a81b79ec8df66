import Gleipnir.Lib.Framing
import Gleipnir.Sample
import Gleipnir.Transport.GossipBus

/-!
# The secure channel: messages

`WriteMessage` and `ReadMessage` of `transport/secure_conn.go`. Both bound the size of a message, the writer before it seals and
the reader after: a message in between is written and then refused (`channel_roundTrip_iff`). The reader takes the nonce off a
frame without a look at its length (`readMessages_panic_iff`).
-/

namespace Gleipnir.Transport

open Atomic Framing

/-! ## Connections -/

/-- What the channel is built from: ChaCha20-Poly1305, Kyber1024 and HKDF with SHA-256. -/
structure ChannelPrims where
  aeadSeal : Arr 32 → Arr 12 → Bytes → Bytes
  aeadOpen : Arr 32 → Arr 12 → Bytes → Option Bytes
  encapsulateTo : Bytes → Bytes → Arr 1568 × Arr 32
  decapsulateTo : Bytes → Bytes → Arr 32
  hkdf : Bytes → Bytes → Bytes → Arr 32

/-- The errors of the channel and of what it is built from. -/
inductive ConnError where
  | eof
  | unexpectedEOF
  | write
  | rand
  | frameTooLarge
  | openFailed
  | kyberInvalidKey
  | kyberInvalidCT
  deriving DecidableEq

/-- A `net.Conn`: what the peer sends from here on before the stream ends, what was written, and, for each write from here on,
after how many bytes it fails, if it does. -/
structure Conn where
  inbound : Bytes
  sent : Bytes
  faults : Nat → Option Nat

/-- `conn.Write`. -/
def Conn.write (c : Conn) (data : Bytes) : Except ConnError Unit × Conn :=
  match c.faults 0 with
  | none => (.ok (), { c with sent := c.sent ++ data, faults := fun n => c.faults (n + 1) })
  | some n => (.error .write, { c with sent := c.sent ++ data.take n, faults := fun n => c.faults (n + 1) })

/-- `io.ReadFull` into a buffer of `n` bytes. -/
def Conn.readFull (c : Conn) (n : Nat) : Except ConnError Bytes × Conn :=
  if n ≤ c.inbound.length then (.ok (c.inbound.take n), { c with inbound := c.inbound.drop n })
  else (.error (if c.inbound = [] then .eof else .unexpectedEOF), { c with inbound := [] })

/-! ## Messages -/

def nonceSize : Nat := 12

def maxFrameSize : Nat := 1024 * 1024 + 12

/-- By how much ChaCha20-Poly1305 expands a message. -/
def tagSize : Nat := 16

variable (P : ChannelPrims) (key : Arr 32)

/-- The frame of a message. -/
def frameOf (nonce : Arr 12) (data : Bytes) : Bytes :=
  let ct := P.aeadSeal key nonce data
  be32 (nonceSize + ct.length) ++ (nonce.toList ++ ct)

/-- `WriteMessage`; the nonce is what `rand.Read` gives, if it does. -/
def writeMessage (nonce : Option (Arr 12)) (data : Bytes) (c : Conn) : Except ConnError Unit × Conn :=
  if maxFrameSize - nonceSize < data.length then (.error .frameTooLarge, c)
  else match nonce with
    | none => (.error .rand, c)
    | some nonce => c.write (frameOf P key nonce data)

/-- The end of `ReadMessage`, from a frame. The slice `frame[:nonceSize]` is out of range if the frame is shorter. -/
def openFrame (frame : Bytes) : Exit (Except ConnError Bytes) :=
  if frame.length < nonceSize then .panic
  else match P.aeadOpen key (Arr.copy 12 frame) (frame.drop nonceSize) with
    | none => .done (.error .openFailed)
    | some plaintext => .done (.ok plaintext)

/-- `ReadMessage`. -/
def readMessage (c : Conn) : Exit (Except ConnError Bytes) × Conn :=
  match c.readFull 4 with
  | (.error err, c) => (.done (.error err), c)
  | (.ok lenBuf, c) =>
    let frameLen := bigEndian lenBuf
    if maxFrameSize < frameLen then (.done (.error .frameTooLarge), c)
    else match c.readFull frameLen with
      | (.error err, c) => (.done (.error err), c)
      | (.ok frame, c) => (openFrame P key frame, c)

/-- Calls of `WriteMessage`, as long as they return nil. -/
def writeMessages : List (Option (Arr 12) × Bytes) → Conn → Except ConnError Unit × Conn
  | [], c => (.ok (), c)
  | (nonce, data) :: calls, c =>
    match writeMessage P key nonce data c with
    | (.error err, c) => (.error err, c)
    | (.ok (), c) => writeMessages calls c

/-- Calls of `ReadMessage` and what they return, up to a panic. -/
def readMessages : Nat → Conn → Exit (List (Except ConnError Bytes)) × Conn
  | 0, c => (.done [], c)
  | n + 1, c =>
    match readMessage P key c with
    | (.panic, c) => (.panic, c)
    | (.done r, c) =>
      match readMessages n c with
      | (.panic, c) => (.panic, c)
      | (.done rs, c) => (.done (r :: rs), c)

/-! ## One read -/

/-- Four bytes announce the length of a frame. -/
def wire : Format UInt8 := ⟨4, bigEndian⟩

variable {c : Conn}

theorem write_ok {data : Bytes} {c' : Conn} (h : c.write data = (.ok (), c')) :
    c.faults 0 = none ∧ c' = { c with sent := c.sent ++ data, faults := fun n => c.faults (n + 1) } := by
  unfold Conn.write at h
  split at h
  · next hnone =>
    cases h
    exact ⟨hnone, rfl⟩
  · cases h

theorem readFull_of_le {n : Nat} (h : n ≤ c.inbound.length) :
    c.readFull n = (.ok (c.inbound.take n), { c with inbound := c.inbound.drop n }) := if_pos h

theorem readFull_of_lt {n : Nat} (h : c.inbound.length < n) : ∃ err, c.readFull n = (.error err, { c with inbound := [] }) :=
  ⟨_, if_neg (Nat.not_le.2 h)⟩

theorem readFull_ok {n : Nat} {m : Bytes} {c' : Conn} (h : c.readFull n = (.ok m, c')) :
    n ≤ c.inbound.length ∧ m = c.inbound.take n ∧ c' = { c with inbound := c.inbound.drop n } := by
  unfold Conn.readFull at h
  split at h
  · next hle =>
    cases h
    exact ⟨hle, rfl, rfl⟩
  · cases h

theorem readMessage_ended (h : next wire maxFrameSize c.inbound = .ended) :
    ∃ err, readMessage P key c = (.done (.error err), { c with inbound := [] }) := by
  rcases of_next_ended h with hwidth | ⟨hwidth, hlimit, hlen⟩
  · have hwidth : c.inbound.length < 4 := hwidth
    obtain ⟨err, hread⟩ := readFull_of_lt hwidth
    exact ⟨err, by rw [readMessage, hread]⟩
  · have hwidth : 4 ≤ c.inbound.length := hwidth
    have hlimit : bigEndian (c.inbound.take 4) ≤ maxFrameSize := hlimit
    have hlen : (c.inbound.drop 4).length < bigEndian (c.inbound.take 4) := hlen
    obtain ⟨err, hread⟩ := readFull_of_lt (c := { c with inbound := c.inbound.drop 4 }) hlen
    refine ⟨err, ?_⟩
    rw [readMessage, readFull_of_le hwidth]
    dsimp only
    rw [if_neg (Nat.not_lt.2 hlimit), hread]

theorem readMessage_refused {rest : Bytes} (h : next wire maxFrameSize c.inbound = .refused rest) :
    readMessage P key c = (.done (.error .frameTooLarge), { c with inbound := rest }) := by
  obtain ⟨pre, hpre, hlimit, hs⟩ := of_next_refused h
  have hpre : pre.length = 4 := hpre
  rw [readMessage, readFull_of_le (by rw [hs]; simp; omega), hs, List.take_left' hpre, List.drop_left' hpre]
  exact if_pos hlimit

theorem readMessage_frame {body rest : Bytes} (h : next wire maxFrameSize c.inbound = .frame body rest) :
    readMessage P key c = (openFrame P key body, { c with inbound := rest }) := by
  obtain ⟨pre, ⟨hpre, hann⟩, hlimit, hs⟩ := of_next_frame h
  have hpre : pre.length = 4 := hpre
  have hann : bigEndian pre = body.length := hann
  rw [List.append_assoc] at hs
  rw [readMessage, readFull_of_le (by rw [hs]; simp; omega), hs, List.take_left' hpre, List.drop_left' hpre]
  dsimp only
  rw [hann, if_neg (Nat.not_lt.2 hlimit), readFull_of_le (by simp)]
  dsimp only
  rw [List.take_left' rfl, List.drop_left' rfl]

/-- A read leaves what the framing leaves. -/
theorem readMessage_inbound : (readMessage P key c).2.inbound = (next wire maxFrameSize c.inbound).rest := by
  cases h : next wire maxFrameSize c.inbound with
  | ended =>
    obtain ⟨err, hread⟩ := readMessage_ended P key h
    rw [hread]
    rfl
  | refused rest =>
    rw [readMessage_refused P key h]
    rfl
  | frame body rest =>
    rw [readMessage_frame P key h]
    rfl

theorem openFrame_panic_iff {body : Bytes} : openFrame P key body = .panic ↔ body.length < nonceSize := by
  unfold openFrame
  split
  · next h => exact iff_of_true rfl h
  · next h =>
    split
    · exact iff_of_false (by simp) h
    · exact iff_of_false (by simp) h

theorem readMessage_panic_iff : (readMessage P key c).1 = .panic ↔
    ∃ body rest, next wire maxFrameSize c.inbound = .frame body rest ∧ body.length < nonceSize := by
  cases h : next wire maxFrameSize c.inbound with
  | ended =>
    obtain ⟨err, hread⟩ := readMessage_ended P key h
    simp [hread]
  | refused rest => simp [readMessage_refused P key h]
  | frame body rest => simp [readMessage_frame P key h, openFrame_panic_iff]

/-! ## Runs of reads -/

/-- **When reads panic**: one of them comes to a frame that is too short for a nonce. -/
theorem readMessages_panic_iff {n : Nat} : (readMessages P key n c).1 = .panic ↔
    ∃ k < n, ∃ body rest, next wire maxFrameSize (unread wire maxFrameSize k c.inbound) = .frame body rest ∧
      body.length < nonceSize := by
  induction n generalizing c with
  | zero => simp [readMessages]
  | succ n ih =>
    have hstep := readMessage_panic_iff P key (c := c)
    have hrest := readMessage_inbound P key (c := c)
    have hsplit : (∃ k < n + 1, ∃ body rest, next wire maxFrameSize (unread wire maxFrameSize k c.inbound) =
        .frame body rest ∧ body.length < nonceSize) ↔
        (readMessage P key c).1 = .panic ∨ (readMessages P key n (readMessage P key c).2).1 = .panic := by
      rw [hstep, ih, hrest, Nat.exists_lt_succ_left]
      rfl
    rw [hsplit, readMessages]
    rcases hread : readMessage P key c with ⟨r, c'⟩
    cases r with
    | panic => simp
    | done r =>
      rcases hreads : readMessages P key n c' with ⟨rs, c''⟩
      cases rs with
      | panic => simp [hreads]
      | done rs => simp [hreads]

/-! ## Round trips -/

section RoundTrip

variable {P key}

variable {data rest : Bytes} {nonce : Arr 12}

/-- What a write that returns nil has done. -/
theorem writeMessage_ok {nonce : Option (Arr 12)} {c' : Conn} (h : writeMessage P key nonce data c = (.ok (), c')) :
    data.length ≤ maxFrameSize - nonceSize ∧ ∃ n, nonce = some n ∧ c'.sent = c.sent ++ frameOf P key n data := by
  unfold writeMessage at h
  split at h
  · cases h
  · next hsize =>
    refine ⟨Nat.not_lt.1 hsize, ?_⟩
    cases nonce with
    | none => cases h
    | some n => exact ⟨n, rfl, congrArg Conn.sent (write_ok h).2⟩

theorem sent_of_writeMessages {calls : List (Option (Arr 12) × Bytes)} {w w' : Conn}
    (h : writeMessages P key calls w = (.ok (), w')) : ∃ stream, w'.sent = w.sent ++ stream := by
  induction calls generalizing w with
  | nil =>
    cases h
    exact ⟨[], (List.append_nil _).symm⟩
  | cons x calls ih =>
    obtain ⟨nonce, data⟩ := x
    rw [writeMessages] at h
    rcases hfirst : writeMessage P key nonce data w with ⟨err | ok, w₁⟩
    · rw [hfirst] at h
      cases h
    · rw [hfirst] at h
      obtain ⟨stream, hstream⟩ := ih h
      obtain ⟨-, n, -, hsent⟩ := writeMessage_ok hfirst
      exact ⟨_, by rw [hstream, hsent, List.append_assoc]⟩

variable (hlen : ∀ nonce data, (P.aeadSeal key nonce data).length = data.length + tagSize)
include hlen

/-- The prefix of a frame announces it. -/
theorem announces_frame (hsize : data.length ≤ maxFrameSize - nonceSize) (nonce : Arr 12) :
    Framing.Announces wire (be32 (nonceSize + (P.aeadSeal key nonce data).length)) (nonce.toList ++ P.aeadSeal key nonce data) := by
  refine ⟨rfl, (bigEndian_be32 ?_).trans ?_⟩
  · rw [hlen]
    simp only [maxFrameSize, nonceSize, tagSize] at hsize ⊢
    omega
  · rw [List.length_append, List.Vector.toList_length]
    rfl

theorem length_body (nonce : Arr 12) (data : Bytes) :
    (nonce.toList ++ P.aeadSeal key nonce data).length = data.length + nonceSize + tagSize := by
  rw [List.length_append, List.Vector.toList_length, hlen, nonceSize]
  omega

/-- A message over what the reader takes is refused, although it was written. -/
theorem readMessage_oversized (hin : c.inbound = frameOf P key nonce data ++ rest)
    (hsize : data.length ≤ maxFrameSize - nonceSize) (hover : maxFrameSize < data.length + nonceSize + tagSize) :
    (readMessage P key c).1 = .done (.error .frameTooLarge) := by
  obtain ⟨hpre, hann⟩ := announces_frame hlen hsize nonce
  have hnext : next wire maxFrameSize c.inbound = .refused ((nonce.toList ++ P.aeadSeal key nonce data) ++ rest) := by
    rw [hin, frameOf, List.append_assoc]
    refine next_refused hpre ?_
    rw [hann, length_body hlen]
    exact hover
  rw [readMessage_refused P key hnext]

variable (hopen : ∀ nonce data, P.aeadOpen key nonce (P.aeadSeal key nonce data) = some data)
include hopen

/-- A message within what the reader takes is read back. -/
theorem readMessage_fitting (hin : c.inbound = frameOf P key nonce data ++ rest)
    (hfits : data.length + nonceSize + tagSize ≤ maxFrameSize) :
    readMessage P key c = (.done (.ok data), { c with inbound := rest }) := by
  have hbody := length_body hlen nonce data
  have hsize : data.length ≤ maxFrameSize - nonceSize := by omega
  have hnext : next wire maxFrameSize c.inbound = .frame (nonce.toList ++ P.aeadSeal key nonce data) rest := by
    rw [hin]
    exact next_frame (announces_frame hlen hsize nonce) (by rwa [hbody])
  have hdrop : (nonce.toList ++ P.aeadSeal key nonce data).drop nonceSize = P.aeadSeal key nonce data :=
    List.drop_left' (List.Vector.toList_length nonce)
  rw [readMessage_frame P key hnext, openFrame, if_neg (by omega), Arr.copy_toList_append, hdrop, hopen]

/-- **Round trips through the channel.** Messages that were written are read back in order exactly if each of them, sealed and
with its nonce, is within the limit; the writer takes messages of up to `tagSize` bytes more. -/
theorem channel_roundTrip_iff {calls : List (Option (Arr 12) × Bytes)} {w w' r : Conn}
    (hw : writeMessages P key calls w = (.ok (), w')) {stream later : Bytes} (hsent : w'.sent = w.sent ++ stream)
    (hr : r.inbound = stream ++ later) :
    (readMessages P key calls.length r).1 = .done (calls.map fun x => .ok x.2) ↔
      ∀ x ∈ calls, x.2.length + nonceSize + tagSize ≤ maxFrameSize := by
  induction calls generalizing w r stream with
  | nil => simp [readMessages]
  | cons x calls ih =>
    obtain ⟨nonce, data⟩ := x
    rw [writeMessages] at hw
    rcases hfirst : writeMessage P key nonce data w with ⟨err | ok, w₁⟩
    · rw [hfirst] at hw
      cases hw
    · rw [hfirst] at hw
      obtain ⟨hsize, n, rfl, hsent₁⟩ := writeMessage_ok hfirst
      -- the frame of the first message, and behind it those of the others
      obtain ⟨stream₁, hstream₁⟩ := sent_of_writeMessages hw
      have hstream : stream = frameOf P key n data ++ stream₁ := by
        rw [hstream₁, hsent₁, List.append_assoc] at hsent
        exact (List.append_cancel_left hsent).symm
      rw [hstream, List.append_assoc] at hr
      rw [List.forall_mem_cons, List.length_cons, readMessages]
      by_cases hfits : data.length + nonceSize + tagSize ≤ maxFrameSize
      · have hrest := ih hw hstream₁ (r := { r with inbound := stream₁ ++ later }) rfl
        rw [and_iff_right hfits, ← hrest, readMessage_fitting hlen hopen hr hfits]
        dsimp only
        rcases readMessages P key calls.length { r with inbound := stream₁ ++ later } with ⟨rs | _, r'⟩
        · simp
        · simp
      · have hfail := readMessage_oversized hlen hr hsize (Nat.not_le.1 hfits)
        rcases hread : readMessage P key r with ⟨r₁, r'⟩
        rw [hread] at hfail
        obtain rfl : r₁ = .done (.error .frameTooLarge) := hfail
        dsimp only
        rcases readMessages P key calls.length r' with ⟨rs | _, r''⟩
        · simp [hfits]
        · simp [hfits]

end RoundTrip

end Gleipnir.Transport

namespace Gleipnir.Sample

open Atomic Transport

/-- A channel that evaluates quickly: the tags, the ciphertexts and the secrets are zero. -/
def channel : ChannelPrims where
  aeadSeal := fun _ _ data => data ++ List.replicate 16 0
  aeadOpen := fun _ _ ct => some (ct.take (ct.length - 16))
  encapsulateTo := fun _ _ => (Arr.zero 1568, Arr.zero 32)
  decapsulateTo := fun _ _ => Arr.zero 32
  hkdf := fun secret salt info => digest (secret ++ salt ++ info)

theorem channel_seal (key : Arr 32) (nonce : Arr 12) (data : Bytes) :
    (channel.aeadSeal key nonce data).length = data.length + tagSize := by
  simp [channel, tagSize]

theorem channel_open (key : Arr 32) (nonce : Arr 12) (data : Bytes) :
    channel.aeadOpen key nonce (channel.aeadSeal key nonce data) = some data := by
  simp [channel]

/-- A connection on which the peer has sent these bytes, and no write fails. -/
def carrying (inbound : Bytes) : Conn := ⟨inbound, [], fun _ => none⟩

/-- Two messages, the second of them empty. -/
def shortMessages : List (Option (Arr 12) × Bytes) := [(some (Arr.zero 12), [1, 2]), (some (Arr.zero 12), [])]

theorem short_messages_read : ∃ w, writeMessages channel (Arr.zero 32) shortMessages (carrying []) = (.ok (), w) ∧
    (readMessages channel (Arr.zero 32) 2 (carrying w.sent)).1 = .done [.ok [1, 2], .ok []] := by
  have hfits : ∀ x ∈ shortMessages, x.2.length + nonceSize + tagSize ≤ maxFrameSize := by decide
  obtain ⟨w, hw⟩ : ∃ w, writeMessages channel (Arr.zero 32) shortMessages (carrying []) = (.ok (), w) := ⟨_, rfl⟩
  have hsent : w.sent = (carrying []).sent ++ w.sent := (List.nil_append _).symm
  have hread : (carrying w.sent).inbound = w.sent ++ [] := (List.append_nil _).symm
  exact ⟨w, hw, (channel_roundTrip_iff (channel_seal _) (channel_open _) hw hsent hread).2 hfits⟩

/-- The longest messages that the writer takes are too long for the reader by as much as the tag. -/
theorem long_message_refused :
    (∀ key nonce data, (channel.aeadSeal key nonce data).length = data.length + tagSize) ∧
    (∀ key nonce data, channel.aeadOpen key nonce (channel.aeadSeal key nonce data) = some data) ∧
    ∃ data w, writeMessages channel (Arr.zero 32) [(some (Arr.zero 12), data)] (carrying []) = (.ok (), w) ∧
      (readMessages channel (Arr.zero 32) 1 (carrying w.sent)).1 = .done [.error .frameTooLarge] := by
  refine ⟨channel_seal, channel_open, ?_⟩
  obtain ⟨data, hlen⟩ : ∃ data : Bytes, data.length = maxFrameSize - nonceSize - tagSize + 1 :=
    ⟨List.replicate _ 0, List.length_replicate⟩
  have hsize : data.length ≤ maxFrameSize - nonceSize := by
    rw [hlen]
    decide
  have hover : maxFrameSize < data.length + nonceSize + tagSize := by
    rw [hlen]
    decide
  have hwrite : writeMessages channel (Arr.zero 32) [(some (Arr.zero 12), data)] (carrying []) =
      (.ok (), { carrying [] with sent := [] ++ frameOf channel (Arr.zero 32) (Arr.zero 12) data }) := by
    rw [writeMessages, writeMessage, if_neg (Nat.not_lt.2 hsize)]
    rfl
  refine ⟨data, _, hwrite, ?_⟩
  have hread := readMessage_oversized (c := carrying ([] ++ frameOf channel (Arr.zero 32) (Arr.zero 12) data))
    (channel_seal _) (List.append_nil _).symm hsize hover
  rcases hr : readMessage channel (Arr.zero 32) (carrying ([] ++ frameOf channel (Arr.zero 32) (Arr.zero 12) data))
    with ⟨r, c⟩
  rw [hr] at hread
  obtain rfl : r = .done (.error .frameTooLarge) := hread
  rw [readMessages, hr]
  rfl

end Gleipnir.Sample
