import Syncthing.Net.Framing

/-! The read task checks the length of a frame on the wire. The size that a compressed frame claims
for its content is not checked. -/
namespace Syncthing

open Wire List ReadTask

variable (codec : FrameCodec) (frame : Bytes × Bytes)

/-- The size that a compressed frame claims for its content. -/
def FrameCodec.claimedSize : Option Nat :=
  match codec.decodeHeader frame.1 with
  | .error _ => none
  | .ok bepHeader =>
    match MessageHeader.fromBepHeader bepHeader with
    | none => none
    | some header =>
      if header.compressed ∧ 4 ≤ frame.2.length then some (fromBe (frame.2.take 4)) else none

/-- The size the decompressor is asked for, an `i32`. -/
def FrameCodec.askedSize : Option Int :=
  (codec.claimedSize frame).map fun n : Nat => Int.bmod n (2 ^ 32)

/-- LZ4 makes no more bytes than it is asked for, and refuses negative sizes. -/
def FrameCodec.Bounded : Prop :=
  ∀ block size content, codec.decompress block size = .ok content → content.length ≤ size

namespace ReadTask

/-- The header and the message of the frame that is whole when a read is over. -/
def frame? (t : ReadTask) (bytes : Bytes) : Option (Bytes × Bytes) :=
  match t.reading with
  | .messageLength header => if fromBe bytes = 0 then some (header, []) else none
  | .message header _ => some (header, bytes)
  | _ => none

def frameAt (p : ReadTask × Bytes) : Arrival → Option (Bytes × Bytes)
  | .byte b => if (p.2 ++ [b]).length < p.1.need then none else p.1.frame? (p.2 ++ [b])
  | .elapsed => none

/-- The whole frames among what arrives. -/
def frames (codec : FrameCodec) : ReadTask × Bytes → List Arrival → List (Bytes × Bytes)
  | _, [] => []
  | p, a :: arrivals => (frameAt p a).toList ++ frames codec (arrive codec p a) arrivals

/-- No message is longer than `MAX_BEP_MESSAGE_SIZE`, nor is one that is asked of the
decompressor. -/
def SizesLimited (codec : FrameCodec) (arrivals : List Arrival) : Prop :=
  (∀ m ∈ (run codec arrivals).1.received, m.2.length ≤ maxBepMessageSize) ∧
    ∀ frame ∈ frames codec (start, []) arrivals, ∀ size, codec.askedSize frame = some size →
      size ≤ maxBepMessageSize

variable {codec : FrameCodec} {t : ReadTask} {header msg : Bytes}

/-- A whole frame makes the task fail, or is handed on as it is or as what the decompressor makes of
it when asked for `askedSize`. -/
theorem gotMessage_cases (codec : FrameCodec) (t : ReadTask) (header msg : Bytes) :
    (∃ error, t.gotMessage codec header msg = t.fail error) ∨
    (∃ messageType, t.gotMessage codec header msg = t.receive messageType msg) ∨
    ∃ messageType size content, codec.askedSize (header, msg) = some size ∧
      codec.decompress (msg.drop 4) size = .ok content ∧
      t.gotMessage codec header msg = t.receive messageType content := by
  unfold gotMessage
  split
  · exact .inl ⟨_, rfl⟩
  next hdecode =>
    split
    · exact .inl ⟨_, rfl⟩
    next hheader =>
      split
      next hcompressed =>
        split
        · exact .inl ⟨_, rfl⟩
        next hlen =>
          have hsize : codec.askedSize (header, msg) =
              some (Int.bmod (fromBe (msg.take 4)) (2 ^ 32)) := by
            simp [FrameCodec.askedSize, FrameCodec.claimedSize, hdecode, hheader, hcompressed,
              Nat.le_of_not_lt hlen]
          dsimp only
          split
          · exact .inl ⟨_, rfl⟩
          next hcontent => exact .inr (.inr ⟨_, _, _, hsize, hcontent, rfl⟩)
      · exact .inr (.inl ⟨_, rfl⟩)

/-- What the task has handed on is limited, and so is the message it waits for, of which it has a
part. -/
structure Limited (p : ReadTask × Bytes) : Prop where
  received : ∀ m ∈ p.1.received, m.2.length ≤ maxBepMessageSize
  waiting : ∀ header len, p.1.reading = .message header len →
    p.2.length < len ∧ len ≤ maxBepMessageSize

variable {p : ReadTask × Bytes} {bytes rest : Bytes}

theorem Limited.fail (h : Limited (t, bytes)) {error : StreamError} :
    Limited (t.fail error, rest) :=
  ⟨h.received, nofun⟩

theorem Limited.receive (h : Limited (t, bytes)) {messageType : MessageType}
    (hmsg : msg.length ≤ maxBepMessageSize) : Limited (t.receive messageType msg, rest) := by
  refine ⟨forall_mem_append.mpr ⟨h.received, ?_⟩, nofun⟩
  exact forall_mem_singleton.mpr hmsg

section
variable (hcodec : codec.Bounded)
include hcodec

theorem Limited.gotMessage (h : Limited (t, bytes)) (hmsg : msg.length ≤ maxBepMessageSize)
    (hasked : ∀ size, codec.askedSize (header, msg) = some size → size ≤ maxBepMessageSize) :
    Limited (t.gotMessage codec header msg, rest) := by
  obtain ⟨error, heq⟩ | ⟨messageType, heq⟩ | ⟨messageType, size, content, hsize, hcontent, heq⟩ :=
    gotMessage_cases codec t header msg
  · rw [heq]
    exact h.fail
  · rw [heq]
    exact h.receive hmsg
  · have hle := Int.le_trans (hcodec _ _ _ hcontent) (hasked _ hsize)
    rw [heq]
    exact h.receive (Int.ofNat_le.mp hle)

/-- The frame that becomes whole decides what the task does next. -/
theorem Limited.complete (h : Limited (t, bytes)) {b : UInt8}
    (hasked : ∀ frame ∈ t.frame? (bytes ++ [b]),
      ∀ size, codec.askedSize frame = some size → size ≤ maxBepMessageSize) :
    Limited (t.complete codec (bytes ++ [b]), []) := by
  unfold ReadTask.complete
  unfold ReadTask.frame? at hasked
  cases hreading : t.reading with
  | headerLength =>
    dsimp only
    unfold gotHeaderLength
    split
    · exact ⟨h.received, nofun⟩
    · split <;> exact ⟨h.received, nofun⟩
  | header len => exact ⟨h.received, nofun⟩
  | messageLength header =>
    rw [hreading] at hasked
    dsimp only at hasked ⊢
    unfold gotMessageLength
    split
    · exact h.fail
    next hlen =>
      split
      next hzero => exact h.gotMessage hcodec (Nat.zero_le _) (hasked _ (if_pos hzero))
      next hzero =>
        refine ⟨h.received, fun header' len' heq => ?_⟩
        cases heq
        exact ⟨Nat.pos_of_ne_zero hzero, Nat.le_of_not_lt hlen⟩
  | message header len =>
    rw [hreading] at hasked
    obtain ⟨hpart, hlen⟩ := h.waiting header len hreading
    have hmsg : (bytes ++ [b]).length ≤ maxBepMessageSize := by
      rw [length_append]
      exact Nat.le_trans hpart hlen
    exact h.gotMessage hcodec hmsg (hasked _ rfl)
  | failed error => exact ⟨h.received, fun _ _ heq => nomatch hreading.symm.trans heq⟩

theorem Limited.arrive (h : Limited p) {a : Arrival} (hasked : ∀ frame ∈ frameAt p a,
      ∀ size, codec.askedSize frame = some size → size ≤ maxBepMessageSize) :
    Limited (arrive codec p a) := by
  cases a with
  | byte b =>
    change Limited (feed need (ReadTask.complete codec) p b)
    unfold feed
    split
    next hpart =>
      refine ⟨h.received, fun header len hreading => ⟨?_, (h.waiting header len hreading).2⟩⟩
      rwa [need, hreading] at hpart
    next hwhole =>
      rw [frameAt, if_neg hwhole] at hasked
      exact h.complete hcodec hasked
  | elapsed =>
    change Limited (elapsed p)
    unfold elapsed
    dsimp only
    cases hreading : p.1.reading with
    | headerLength =>
      dsimp only
      split <;> exact ⟨h.received, by simp [ReadTask.fail]⟩
    | failed error => exact h
    | header _ | messageLength _ | message _ _ => exact h.fail

theorem Limited.foldl {arrivals : List Arrival} (h : Limited p)
    (hasked : ∀ frame ∈ frames codec p arrivals,
      ∀ size, codec.askedSize frame = some size → size ≤ maxBepMessageSize) :
    Limited (arrivals.foldl (ReadTask.arrive codec) p) := by
  induction arrivals generalizing p with
  | nil => exact h
  | cons a arrivals ih =>
    rw [frames, forall_mem_append] at hasked
    refine ih (h.arrive hcodec fun frame hframe => ?_) hasked.2
    exact hasked.1 frame (Option.mem_toList.mpr hframe)

end

end ReadTask

/-- An `i32` that comes of an `u32` is at most the limit if that is, or if it is negative. -/
theorem bmod_le_maxBepMessageSize {n : Nat} (hn : n < 2 ^ 32) :
    Int.bmod n (2 ^ 32) ≤ maxBepMessageSize ↔ n ≤ maxBepMessageSize ∨ 2 ^ 31 ≤ n := by
  rw [Int.bmod_def, maxBepMessageSize]
  split <;> omega

theorem FrameCodec.claimedSize_lt {codec : FrameCodec} {frame : Bytes × Bytes} {n : Nat}
    (h : codec.claimedSize frame = some n) : n < 2 ^ 32 := by
  unfold claimedSize at h
  split at h
  · cases h
  · split at h
    · cases h
    · split at h
      next hlen =>
        cases h
        have hlt := fromBe_lt (frame.2.take 4)
        rwa [length_take, Nat.min_eq_left hlen.2] at hlt
      · cases h

/-- Sizes are limited if no compressed frame claims a size over the limit that is positive as an
`i32`. -/
theorem sizes_limited_iff {codec : FrameCodec} (hcodec : codec.Bounded) (arrivals : List Arrival) :
    ReadTask.SizesLimited codec arrivals ↔ ∀ frame ∈ frames codec (start, []) arrivals, ∀ n,
        codec.claimedSize frame = some n → n ≤ maxBepMessageSize ∨ 2 ^ 31 ≤ n := by
  have hstart : ReadTask.Limited (start, []) := ⟨nofun, nofun⟩
  constructor
  · rintro ⟨-, hasked⟩ frame hframe n hn
    refine (bmod_le_maxBepMessageSize (codec.claimedSize_lt hn)).mp (hasked frame hframe _ ?_)
    rw [FrameCodec.askedSize, hn, Option.map_some]
  · intro hclaimed
    have hasked : ∀ frame ∈ frames codec (start, []) arrivals, ∀ size,
        codec.askedSize frame = some size → size ≤ maxBepMessageSize := by
      intro frame hframe size hsize
      obtain ⟨n, hn, rfl⟩ := Option.map_eq_some_iff.mp hsize
      exact (bmod_le_maxBepMessageSize (codec.claimedSize_lt hn)).mpr (hclaimed frame hframe n hn)
    exact ⟨(hstart.foldl hcodec hasked).received, hasked⟩

theorem literalCodec_bounded : literalCodec.Bounded := by
  intro block size content h
  cases block with
  | nil => cases h
  | cons token rest =>
    simp only [literalCodec] at h
    split at h <;> split at h
    all_goals
      cases h
      try omega

/-- A compressed ping whose block is a token without literals. -/
def pingClaiming (size : Bytes) : List Arrival :=
  ([0, 4] ++ [8, 6, 16, 1] ++ [0, 0, 0, 5] ++ size ++ [0]).map .byte

theorem sizes_limited_iff_negative :
    ReadTask.SizesLimited literalCodec (pingClaiming [0x80, 0, 0, 0]) := by
  refine (sizes_limited_iff literalCodec_bounded _).mpr ?_
  have hframes : frames literalCodec (start, [])
      (pingClaiming [0x80, 0, 0, 0]) = [([8, 6, 16, 1], [0x80, 0, 0, 0, 0])] := by decide
  rw [hframes, forall_mem_singleton]
  intro n hn
  cases hn
  exact .inr (by decide)

/-- For a frame of 15 bytes that claims 80 MiB the decompressor is asked for that many, to make an
empty message. -/
theorem claimed_size_not_limited : literalCodec.Bounded ∧
      (run literalCodec (pingClaiming [5, 0, 0, 0])).1.received = [(.ping, [])] ∧
      (frames literalCodec (start, []) (pingClaiming [5, 0, 0, 0])).map literalCodec.askedSize =
        [some (80 * 1024 * 1024)] ∧
      ¬ ReadTask.SizesLimited literalCodec (pingClaiming [5, 0, 0, 0]) := by
  have hframes : frames literalCodec (start, []) (pingClaiming [5, 0, 0, 0]) =
      [([8, 6, 16, 1], [5, 0, 0, 0, 0])] := by decide
  have hasked : literalCodec.askedSize ([8, 6, 16, 1], [5, 0, 0, 0, 0]) =
      some (80 * 1024 * 1024) := by decide +kernel
  refine ⟨literalCodec_bounded, by decide +kernel, by rw [hframes, map_singleton, hasked], ?_⟩
  exact fun h => absurd (h.2 _ (by rw [hframes]; exact mem_singleton_self _) _ hasked) (by decide)

end Syncthing
