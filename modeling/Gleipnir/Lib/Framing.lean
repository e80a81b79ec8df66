import Mathlib.Data.List.Basic

/-!
# Frames on a stream

A frame is a body behind a prefix of fixed width that announces its length. A reader takes the prefix; refuses the frame if it
announces more than the limit, and then goes on right behind the prefix; otherwise takes the body, or finds that the stream ends
before.

* `next_frame`, `next_refused` and `of_next_frame`, `of_next_refused`, `of_next_ended`: what one read finds.
* `gets_iff`: the frames that a reader ever gets to, in terms of the stream.
-/

namespace Framing

variable {α : Type*}

/-- The width of a prefix, and the length it announces. -/
structure Format (α : Type*) where
  width : Nat
  announced : List α → Nat

/-- What a read finds, and what it leaves on the stream. -/
inductive Found (α : Type*) where
  | ended
  | refused (rest : List α)
  | frame (body rest : List α)

variable (F : Format α) (limit : Nat)

/-- One read. -/
def next (s : List α) : Found α :=
  if s.length < F.width then .ended
  else
    let n := F.announced (s.take F.width)
    let rest := s.drop F.width
    if limit < n then .refused rest else if rest.length < n then .ended else .frame (rest.take n) (rest.drop n)

/-- A stream that ended has nothing left. -/
def Found.rest : Found α → List α
  | .ended => []
  | .refused rest => rest
  | .frame _ rest => rest

/-- What is left after some reads. -/
def unread : Nat → List α → List α
  | 0, s => s
  | n + 1, s => unread n (next F limit s).rest

/-- A prefix that announces the body. -/
def Announces (pre body : List α) : Prop := pre.length = F.width ∧ F.announced pre = body.length

/-- What a read takes off a stream that goes on: a frame, or a prefix that is refused. -/
def Piece (p : List α) : Prop :=
  (∃ pre body, Announces F pre body ∧ body.length ≤ limit ∧ p = pre ++ body) ∨ (p.length = F.width ∧ limit < F.announced p)

/-- A reader gets to a frame with this body after some reads. -/
def Gets (s body : List α) : Prop := ∃ n rest, next F limit (unread F limit n s) = .frame body rest

variable {F limit} {s pre body rest : List α}

theorem next_frame (h : Announces F pre body) (hlimit : body.length ≤ limit) :
    next F limit (pre ++ body ++ rest) = .frame body rest := by
  obtain ⟨hwidth, hlen⟩ := h
  rw [List.append_assoc, next, if_neg (by simp; omega), List.take_left' hwidth, List.drop_left' hwidth]
  dsimp only
  rw [hlen, if_neg (Nat.not_lt.2 hlimit), if_neg (by simp), List.take_left' rfl, List.drop_left' rfl]

theorem next_refused (hwidth : pre.length = F.width) (hlimit : limit < F.announced pre) :
    next F limit (pre ++ rest) = .refused rest := by
  rw [next, if_neg (by simp; omega), List.take_left' hwidth, List.drop_left' hwidth]
  exact if_pos hlimit

theorem of_next_frame (h : next F limit s = .frame body rest) :
    ∃ pre, Announces F pre body ∧ body.length ≤ limit ∧ s = pre ++ body ++ rest := by
  unfold next at h
  split at h
  · cases h
  · next hwidth =>
    dsimp only at h
    split at h
    · cases h
    · next hlimit =>
      split at h
      · cases h
      · next hlen =>
        obtain ⟨rfl, rfl⟩ := Found.frame.inj h
        have htake : ((s.drop F.width).take (F.announced (s.take F.width))).length = F.announced (s.take F.width) :=
          List.length_take_of_le (Nat.not_lt.1 hlen)
        refine ⟨s.take F.width, ⟨List.length_take_of_le (Nat.not_lt.1 hwidth), htake.symm⟩, ?_, ?_⟩
        · rw [htake]
          exact Nat.not_lt.1 hlimit
        · rw [List.append_assoc, List.take_append_drop, List.take_append_drop]

theorem of_next_refused (h : next F limit s = .refused rest) :
    ∃ pre, pre.length = F.width ∧ limit < F.announced pre ∧ s = pre ++ rest := by
  unfold next at h
  split at h
  · cases h
  · next hwidth =>
    dsimp only at h
    split at h
    · next hlimit =>
      obtain rfl := Found.refused.inj h
      exact ⟨s.take F.width, List.length_take_of_le (Nat.not_lt.1 hwidth), hlimit, (List.take_append_drop _ _).symm⟩
    · split at h
      · cases h
      · cases h

/-- The stream ends in a prefix, or in the body of a frame that is not refused. -/
theorem of_next_ended (h : next F limit s = .ended) :
    s.length < F.width ∨ (F.width ≤ s.length ∧ F.announced (s.take F.width) ≤ limit ∧
      (s.drop F.width).length < F.announced (s.take F.width)) := by
  unfold next at h
  split at h
  · next hwidth => exact .inl hwidth
  · next hwidth =>
    dsimp only at h
    split at h
    · cases h
    · next hlimit =>
      split at h
      · next hlen => exact .inr ⟨Nat.not_lt.1 hwidth, Nat.not_lt.1 hlimit, hlen⟩
      · cases h

/-- A read takes a piece off the stream. -/
theorem next_piece (h : Piece F limit pre) : (next F limit (pre ++ rest)).rest = rest := by
  rcases h with ⟨h, body, hann, hlimit, rfl⟩ | ⟨hwidth, hlimit⟩
  · rw [next_frame hann hlimit]
    rfl
  · rw [next_refused hwidth hlimit]
    rfl

theorem unread_pieces (pieces : List (List α)) (h : ∀ p ∈ pieces, Piece F limit p) :
    unread F limit pieces.length (pieces.flatten ++ rest) = rest := by
  induction pieces with
  | nil => rfl
  | cons p pieces ih =>
    rw [List.forall_mem_cons] at h
    rw [List.length_cons, List.flatten_cons, List.append_assoc, unread, next_piece h.1, ih h.2]

theorem unread_nil (hwidth : 0 < F.width) (n : Nat) : unread F limit n [] = [] := by
  induction n with
  | zero => rfl
  | succ n ih => rw [unread, next, if_pos (by simpa using hwidth), Found.rest, ih]

/-- Before the stream has ended, what was taken off it are pieces. -/
theorem pieces_of_unread (hwidth : 0 < F.width) {n : Nat} (h : unread F limit n s ≠ []) :
    ∃ pieces : List (List α), (∀ p ∈ pieces, Piece F limit p) ∧ s = pieces.flatten ++ unread F limit n s := by
  induction n generalizing s with
  | zero => exact ⟨[], fun _ hp => absurd hp List.not_mem_nil, rfl⟩
  | succ n ih =>
    rw [unread] at h ⊢
    obtain ⟨pieces, hpieces, hrest⟩ := ih h
    cases hnext : next F limit s with
    | ended =>
      rw [hnext] at h
      exact absurd (unread_nil hwidth n) h
    | refused rest =>
      obtain ⟨pre, hpre, hlimit, rfl⟩ := of_next_refused hnext
      rw [hnext] at hrest
      refine ⟨pre :: pieces, List.forall_mem_cons.2 ⟨.inr ⟨hpre, hlimit⟩, hpieces⟩, ?_⟩
      rw [List.flatten_cons, List.append_assoc, ← hrest]
      rfl
    | frame body rest =>
      obtain ⟨pre, hann, hlimit, rfl⟩ := of_next_frame hnext
      rw [hnext] at hrest
      refine ⟨(pre ++ body) :: pieces, List.forall_mem_cons.2 ⟨.inl ⟨pre, body, hann, hlimit, rfl⟩, hpieces⟩, ?_⟩
      rw [List.flatten_cons, List.append_assoc (pre ++ body), ← hrest]
      rfl

/-- **The frames that a reader gets to**: behind frames and refused prefixes, and complete. -/
theorem gets_iff (hwidth : 0 < F.width) : Gets F limit s body ↔
    ∃ (pieces : List (List α)) (pre tail : List α), (∀ p ∈ pieces, Piece F limit p) ∧ Announces F pre body ∧
      body.length ≤ limit ∧ s = pieces.flatten ++ (pre ++ body ++ tail) := by
  constructor
  · rintro ⟨n, rest, hnext⟩
    obtain ⟨pre, hann, hlimit, hs⟩ := of_next_frame hnext
    have hne : unread F limit n s ≠ [] := by
      rw [hs]
      intro hnil
      have hpre : pre = [] := (List.append_eq_nil_iff.1 (List.append_eq_nil_iff.1 hnil).1).1
      rw [← hann.1, hpre] at hwidth
      exact absurd hwidth (Nat.lt_irrefl 0)
    obtain ⟨pieces, hpieces, hsplit⟩ := pieces_of_unread hwidth hne
    exact ⟨pieces, pre, rest, hpieces, hann, hlimit, hs ▸ hsplit⟩
  · rintro ⟨pieces, pre, tail, hpieces, hann, hlimit, rfl⟩
    exact ⟨pieces.length, tail, by rw [unread_pieces pieces hpieces, next_frame hann hlimit]⟩

end Framing
