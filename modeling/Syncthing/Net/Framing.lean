import Syncthing.Core.Types
import Syncthing.Lib.Wire
import Mathlib.Algebra.Group.Int.Defs

/-! The write and the read task of `syncthing-net/src/connection/io.rs`, with the headers of
`protocol.rs`. The transport brings the bytes in order, in any pieces and with any delays. -/
namespace Syncthing

open Wire
open List

inductive MessageType where
  | clusterConfig
  | index
  | indexUpdate
  | request
  | response
  | downloadProgress
  | ping
  | close
  deriving DecidableEq

def MessageType.code : MessageType → Int
  | clusterConfig => 0
  | index => 1
  | indexUpdate => 2
  | request => 3
  | response => 4
  | downloadProgress => 5
  | ping => 6
  | close => 7

/-- The protobuf header. -/
structure BepHeader where
  type : Int
  compression : Int
  deriving DecidableEq

structure MessageHeader where
  messageType : MessageType
  messageId : Nat
  compressed : Bool
  deriving DecidableEq

namespace MessageHeader

/-- `MessageCompression::Lz4`. -/
def lz4 : Int := 1

def toBepHeader (h : MessageHeader) : BepHeader :=
  ⟨h.messageType.code, if h.compressed then lz4 else 0⟩

def fromBepHeader (h : BepHeader) : Option MessageHeader := do
  let messageType ← match h.type with
    | 0 => some .clusterConfig
    | 1 => some .index
    | 2 => some .indexUpdate
    | 3 => some .request
    | 4 => some .response
    | 5 => some .downloadProgress
    | 6 => some .ping
    | 7 => some .close
    | _ => none
  return ⟨messageType, 0, h.compression = lz4⟩

/-- The message id is not sent. -/
theorem fromBepHeader_toBepHeader (h : MessageHeader) :
    fromBepHeader h.toBepHeader = some { h with messageId := 0 } := by
  obtain ⟨messageType, messageId, compressed⟩ := h
  cases messageType <;> cases compressed <;> rfl

end MessageHeader

def maxBepHeaderSize : Nat := 64 * 1024

def maxBepMessageSize : Nat := 64 * 1024 * 1024

def maxIdleTimeouts : Nat := 3

/-- The protobuf encoding of headers and LZ4 block compression, with what is assumed of them. -/
structure FrameCodec where
  encodeHeader : BepHeader → Bytes
  decodeHeader : Bytes → Except String BepHeader
  compress : Bytes → Bytes
  decompress : Bytes → Int → Except String Bytes
  decode_encode : ∀ h : MessageHeader, decodeHeader (encodeHeader h.toBepHeader) = .ok h.toBepHeader
  encode_length : ∀ h : MessageHeader, (encodeHeader h.toBepHeader).length < 256 ^ 2
  decompress_compress : ∀ payload : Bytes,
    decompress (compress payload) payload.length = .ok payload
  /-- `LZ4_compressBound`. -/
  compress_length : ∀ payload : Bytes,
    (compress payload).length ≤ payload.length + payload.length / 255 + 16

/-- A message given to the write task. -/
structure OutgoingMessage where
  header : MessageHeader
  payload : Bytes

inductive StreamError where
  | protocol (message : String)
  | timeout (context : String)
  deriving DecidableEq

namespace FrameCodec

variable (codec : FrameCodec) (m : OutgoingMessage)

/-- The message of a frame. An empty payload is not compressed. -/
def framePayload : Bytes :=
  if m.header.compressed && !m.payload.isEmpty then
    beBytes 4 m.payload.length ++ codec.compress m.payload
  else m.payload

/-- What the write task writes for a message. -/
def writeFrame : Bytes :=
  let header := codec.encodeHeader m.header.toBepHeader
  let payload := codec.framePayload m
  beBytes 2 header.length ++ (header ++ (beBytes 4 payload.length ++ payload))

end FrameCodec
open FrameCodec (framePayload writeFrame)

/-- What the read task waits for. -/
inductive Reading where
  | headerLength
  | header (len : Nat)
  | messageLength (header : Bytes)
  | message (header : Bytes) (len : Nat)
  | failed (error : StreamError)
  deriving DecidableEq

structure ReadTask where
  reading : Reading
  idleTimeouts : Nat
  received : List (MessageType × Bytes)
  deriving DecidableEq

namespace ReadTask

variable (codec : FrameCodec) (t : ReadTask)

def start : ReadTask := ⟨.headerLength, 0, []⟩

def fail (error : StreamError) : ReadTask := { t with reading := .failed error }

def receive (messageType : MessageType) (payload : Bytes) : ReadTask :=
  { t with reading := .headerLength, received := t.received ++ [(messageType, payload)] }

/-- A whole frame is there. -/
def gotMessage (header msg : Bytes) : ReadTask :=
  match codec.decodeHeader header with
  | .error e => t.fail (.protocol ("decode header failed: " ++ e))
  | .ok bepHeader =>
    match MessageHeader.fromBepHeader bepHeader with
    | none => t.fail (.protocol ("unknown message type: " ++ toString bepHeader.type))
    | some header =>
      if header.compressed then
        if msg.length < 4 then t.fail (.protocol "compressed message too short")
        else
          let uncompressedSize := fromBe (msg.take 4)
          match codec.decompress (msg.drop 4) (Int.bmod uncompressedSize (2 ^ 32)) with
          | .error e => t.fail (.protocol ("lz4 decompress failed: " ++ e))
          | .ok decompressed => t.receive header.messageType decompressed
      else t.receive header.messageType msg

/-- A read of no bytes is over at once. -/
def gotMessageLength (header : Bytes) (len : Nat) : ReadTask :=
  if len > maxBepMessageSize then
    t.fail (.protocol ("BEP message too large: " ++ toString len ++ " > " ++
      toString maxBepMessageSize))
  else if len = 0 then t.gotMessage codec header []
  else { t with reading := .message header len }

def gotHeader (header : Bytes) : ReadTask := { t with reading := .messageLength header }

def gotHeaderLength (len : Nat) : ReadTask :=
  if len > maxBepHeaderSize then
    t.fail (.protocol ("BEP header too large: " ++ toString len ++ " > " ++
      toString maxBepHeaderSize))
  else if len = 0 then t.gotHeader []
  else { t with reading := .header len }

def need : Nat :=
  match t.reading with
  | .headerLength => 2
  | .header len => len
  | .messageLength _ => 4
  | .message _ len => len
  | .failed _ => 1

/-- A read is over. -/
def complete (bytes : Bytes) : ReadTask :=
  match t.reading with
  | .headerLength => { t with idleTimeouts := 0 }.gotHeaderLength (fromBe bytes)
  | .header _ => t.gotHeader bytes
  | .messageLength header => t.gotMessageLength codec header (fromBe bytes)
  | .message header _ => t.gotMessage codec header bytes
  | .failed _ => t

/-- A read has not been over within `DEFAULT_MESSAGE_TIMEOUT`. Before a frame the task reads anew:
what it had of the length of the header is lost. -/
def elapsed (p : ReadTask × Bytes) : ReadTask × Bytes :=
  let t := p.1
  match t.reading with
  | .headerLength =>
    let idleTimeouts := t.idleTimeouts + 1
    if idleTimeouts ≥ maxIdleTimeouts then ({ t with idleTimeouts }.fail
        (.timeout "connection idle timeout — no header received after 3 intervals"), [])
    else ({ t with idleTimeouts }, [])
  | .header _ => (t.fail (.timeout "header read timeout"), [])
  | .messageLength _ => (t.fail (.timeout "message length read timeout"), [])
  | .message .. => (t.fail (.timeout "message read timeout"), [])
  | .failed _ => p

end ReadTask

/-- What the read task sees of the transport. -/
inductive Arrival where
  | byte (b : UInt8)
  | elapsed
  deriving DecidableEq

variable (codec : FrameCodec) (p : ReadTask × Bytes)

def ReadTask.arrive : Arrival → ReadTask × Bytes
  | .byte b => feed ReadTask.need (ReadTask.complete codec) p b
  | .elapsed => ReadTask.elapsed p

/-- The read task after some arrivals, and what it has of the piece it reads. -/
def ReadTask.run (codec : FrameCodec) (arrivals : List Arrival) : ReadTask × Bytes :=
  arrivals.foldl (ReadTask.arrive codec) (ReadTask.start, [])

open ReadTask

/-- The messages arrive as they were sent, and without an error. -/
def RoundTrips (ms : List OutgoingMessage) (arrivals : List Arrival) : Prop :=
  (run codec arrivals).1.received = ms.map (fun m => (m.header.messageType, m.payload)) ∧
    ∀ error, (run codec arrivals).1.reading ≠ .failed error

def Arrival.byte? : Arrival → Option UInt8
  | .byte b => some b
  | .elapsed => none

/-- The transport brings some bytes, in any pieces, and with delays that do not make the task give
up the connection. -/
structure Delivers (codec : FrameCodec) (p : ReadTask × Bytes) (bytes : Bytes)
    (arrivals : List Arrival) : Prop where
  bytes : arrivals.filterMap Arrival.byte? = bytes
  alive : ∀ context, (arrivals.foldl (arrive codec) p).1.reading ≠ .failed (.timeout context)

/-- No timeout falls between the two bytes of the length of a header. -/
def LengthsWhole (arrivals : List Arrival) : Prop :=
  ∀ before, before ++ [.elapsed] <+: arrivals →
    (before.foldl (arrive codec) p).1.reading = .headerLength →
      (before.foldl (arrive codec) p).2 = []

/-- The task is between two frames. -/
def Idle : Prop := p.1.reading = .headerLength ∧ p.2 = []

/-- A message that is not flagged as compressed, or is not empty and does not grow too large. -/
def Sendable (m : OutgoingMessage) : Prop := m.header.compressed = false ∨
    m.payload ≠ [] ∧ 4 + (codec.compress m.payload).length ≤ maxBepMessageSize

variable {codec : FrameCodec} {t : ReadTask} {m : OutgoingMessage} {ms : List OutgoingMessage}
  {arrivals : List Arrival} {error : StreamError} {p : ReadTask × Bytes}

namespace ReadTask

theorem run_bytes (p : ReadTask × Bytes) (bytes : Bytes) :
    (bytes.map Arrival.byte).foldl (arrive codec) p =
      bytes.foldl (feed need (complete codec)) p := by
  rw [foldl_map]
  rfl

/-- A task that has failed reads nothing. -/
theorem arrive_failed (h : p.1.reading = .failed error)
    (a : Arrival) : (arrive codec p a).1 = p.1 := by
  cases a with
  | byte b =>
    simp only [arrive, feed, complete, h]
    split <;> rfl
  | elapsed => simp only [arrive, elapsed, h]

theorem run_failed (h : p.1.reading = .failed error) :
    (arrivals.foldl (arrive codec) p).1 = p.1 := by
  induction arrivals generalizing p with
  | nil => rfl
  | cons a arrivals ih => rw [foldl_cons, ih ((arrive_failed h a).symm ▸ h), arrive_failed h a]

/-- The header of a frame is read, whether or not it has any bytes. -/
theorem read_header (hreading : t.reading = .headerLength) {header : Bytes}
    (hlen : header.length < 256 ^ 2) :
    (beBytes 2 header.length ++ header).foldl (feed need (complete codec)) (t, []) =
      ({ t with idleTimeouts := 0, reading := .messageLength header }, []) := by
  have hlength : (beBytes 2 header.length).length = need t := by simp [need, hreading]
  rw [foldl_append, feed_piece (ne_nil_of_length_eq_add_one (length_beBytes 2 _)) hlength]
  simp only [complete, hreading, fromBe_beBytes_of_lt hlen, gotHeaderLength]
  rw [if_neg (by unfold maxBepHeaderSize; omega)]
  by_cases hempty : header.length = 0
  · rw [List.length_eq_zero_iff.mp hempty]
    rfl
  · have hne : header ≠ [] := fun h => hempty (by rw [h]; rfl)
    have hneed : header.length = need ⟨.header header.length, 0, t.received⟩ := rfl
    rw [if_neg hempty, feed_piece hne hneed]
    rfl

section message
variable {header msg : Bytes} (hreading : t.reading = .messageLength header)
include hreading

theorem read_messageLength (hlen : msg.length < 256 ^ 4) :
    (beBytes 4 msg.length).foldl (feed need (complete codec)) (t, []) =
      (t.gotMessageLength codec header msg.length, []) := by
  have hlength : (beBytes 4 msg.length).length = need t := by simp [need, hreading]
  rw [feed_piece (ne_nil_of_length_eq_add_one (length_beBytes 4 _)) hlength]
  simp only [complete, hreading, fromBe_beBytes_of_lt hlen]

/-- The message of a frame is read, whether or not it has any bytes. -/
theorem read_message (hlen : msg.length ≤ maxBepMessageSize) :
    (beBytes 4 msg.length ++ msg).foldl (feed need (complete codec)) (t, []) =
      (t.gotMessage codec header msg, []) := by
  rw [foldl_append, read_messageLength hreading (by unfold maxBepMessageSize at hlen; omega),
    gotMessageLength, if_neg (by omega)]
  by_cases hempty : msg.length = 0
  · rw [List.length_eq_zero_iff.mp hempty]
    rfl
  · have hne : msg ≠ [] := fun h => hempty (by rw [h]; rfl)
    have hneed : msg.length = need ⟨.message header msg.length, t.idleTimeouts, t.received⟩ := rfl
    rw [if_neg hempty, feed_piece hne hneed]
    rfl

/-- A message that is too large ends the task. -/
theorem read_message_large (hlarge : maxBepMessageSize < msg.length) (hlen : msg.length < 256 ^ 4) :
    ∃ error, ((beBytes 4 msg.length ++ msg).foldl (feed need (complete codec)) (t, [])).1.reading =
      .failed error := by
  rw [foldl_append, read_messageLength hreading hlen, gotMessageLength, if_pos hlarge,
    ← run_bytes, run_failed rfl]
  exact ⟨_, rfl⟩

end message

/-- A frame as it was written gives its message. -/
theorem gotMessage_framePayload (h : Sendable codec m)
    (hsize : m.payload.length ≤ maxBepMessageSize) :
    t.gotMessage codec (codec.encodeHeader m.header.toBepHeader) (codec.framePayload m) =
      t.receive m.header.messageType m.payload := by
  by_cases hcompressed : m.header.compressed = false
  · simp [gotMessage, codec.decode_encode, MessageHeader.fromBepHeader_toBepHeader,
      framePayload, hcompressed]
  · have hne := (h.resolve_left hcompressed).1
    rw [Bool.not_eq_false] at hcompressed
    have hsize' : fromBe (beBytes 4 m.payload.length) = m.payload.length :=
      fromBe_beBytes_of_lt (by unfold maxBepMessageSize at hsize; omega)
    have hcast : Int.bmod (m.payload.length : Int) 4294967296 = m.payload.length := by
      unfold maxBepMessageSize at hsize
      rw [Int.bmod_eq_of_le] <;> omega
    have htake : (beBytes 4 m.payload.length ++ codec.compress m.payload).take 4 =
        beBytes 4 m.payload.length := take_left' (length_beBytes 4 _)
    have hdrop : (beBytes 4 m.payload.length ++ codec.compress m.payload).drop 4 =
        codec.compress m.payload := drop_left' (length_beBytes 4 _)
    simp [gotMessage, codec.decode_encode, MessageHeader.fromBepHeader_toBepHeader,
      framePayload, hcompressed, hne, htake, hdrop, hsize', hcast,
      codec.decompress_compress, Nat.not_lt.mpr (Nat.le_add_right 4 _)]

/-- An empty message that is flagged as compressed is refused. -/
theorem gotMessage_empty (hcompressed : m.header.compressed = true) :
    t.gotMessage codec (codec.encodeHeader m.header.toBepHeader) [] =
      t.fail (.protocol "compressed message too short") := by
  simp [gotMessage, codec.decode_encode, MessageHeader.fromBepHeader_toBepHeader, hcompressed]

theorem framePayload_length_lt (hsize : m.payload.length ≤ maxBepMessageSize) :
    (codec.framePayload m).length < 256 ^ 4 := by
  have hbound := codec.compress_length m.payload
  unfold maxBepMessageSize at hsize
  unfold framePayload
  split
  · rw [length_append, length_beBytes]
    omega
  · omega

section
variable (hreading : t.reading = .headerLength)
include hreading

/-- The frame of a message that is sendable is read as it was sent. -/
theorem read_frame (h : Sendable codec m) (hsize : m.payload.length ≤ maxBepMessageSize) :
    (codec.writeFrame m).foldl (feed need (complete codec)) (t, []) =
      ({ t with idleTimeouts := 0 }.receive m.header.messageType m.payload, []) := by
  have hlen : (codec.framePayload m).length ≤ maxBepMessageSize := by
    unfold framePayload
    split
    next hboth =>
      rw [Bool.and_eq_true] at hboth
      rw [length_append, length_beBytes]
      rcases h with h | h
      · rw [hboth.1] at h
        cases h
      · exact h.2
    · exact hsize
  rw [writeFrame, ← append_assoc, foldl_append,
    read_header hreading (codec.encode_length _), read_message rfl hlen,
    gotMessage_framePayload h hsize]
  rfl

theorem read_frames (hidle : t.idleTimeouts = 0)
    (h : ∀ m ∈ ms, Sendable codec m) (hsize : ∀ m ∈ ms, m.payload.length ≤ maxBepMessageSize) :
    (ms.flatMap codec.writeFrame).foldl (feed need (complete codec)) (t, []) =
      ({ t with received := t.received ++ ms.map fun m => (m.header.messageType, m.payload) },
        []) := by
  induction ms generalizing t with
  | nil => simp
  | cons m ms ih =>
    rw [forall_mem_cons] at h hsize
    rw [flatMap_cons, foldl_append, read_frame hreading h.1 hsize.1, ih rfl rfl h.2 hsize.2]
    simp [receive, hreading, hidle]

/-- Any other frame ends the task. -/
theorem read_frame_failed (h : ¬ Sendable codec m) (hsize : m.payload.length ≤ maxBepMessageSize) :
    ∃ error, ((codec.writeFrame m).foldl (feed need (complete codec)) (t, [])).1.reading =
      .failed error := by
  rw [Sendable, not_or, Bool.not_eq_false] at h
  obtain ⟨hcompressed, hnot⟩ := h
  rw [writeFrame, ← append_assoc, foldl_append, read_header hreading (codec.encode_length _)]
  by_cases hempty : m.payload = []
  · have hpayload : codec.framePayload m = [] := by simp [framePayload, hempty]
    rw [hpayload, read_message rfl (Nat.zero_le _), gotMessage_empty hcompressed]
    exact ⟨_, rfl⟩
  · have hlarge : maxBepMessageSize < (codec.framePayload m).length := by
      have : ¬ 4 + (codec.compress m.payload).length ≤ maxBepMessageSize :=
        fun h => hnot ⟨hempty, h⟩
      simp only [framePayload, hcompressed, hempty, Bool.true_and,
        Bool.not_eq_true', isEmpty_eq_false_iff, ne_eq, not_false_eq_true, if_true,
        length_append, length_beBytes]
      omega
    exact read_message_large rfl hlarge (framePayload_length_lt hsize)

end

end ReadTask

section deliveries
variable {p : ReadTask × Bytes} {bytes more pre : Bytes} {a : Arrival} {p' : ReadTask × Bytes}

theorem Idle.not_of_failed (h : p.1.reading = .failed error) : ¬ Idle p := by
  rintro ⟨hreading, -⟩
  rw [h] at hreading
  cases hreading

/-- Inside the second half of a frame the task is not between two frames. -/
theorem not_idle_inside_message {header msg : Bytes} (hreading : t.reading = .messageLength header)
    (hlen : msg.length < 256 ^ 4) (hinitial : pre <+: beBytes 4 msg.length ++ msg)
    (hproper : pre ≠ beBytes 4 msg.length ++ msg) :
    ¬ Idle (pre.foldl (feed need (complete codec)) (t, [])) := by
  have hlength : (beBytes 4 msg.length).length = t.need := by simp [need, hreading]
  refine feed_initial (P := fun p => ¬ Idle p)
    (ne_nil_of_length_eq_add_one (length_beBytes 4 _)) hlength hinitial ?_ ?_
  · rintro - ⟨hidle, -⟩
    rw [hreading] at hidle
    cases hidle
  · rintro rest hrest rfl
    simp only [complete, hreading, fromBe_beBytes_of_lt hlen, gotMessageLength]
    split
    · rw [← run_bytes]
      exact Idle.not_of_failed ((congrArg reading (run_failed rfl)).trans rfl)
    · split
      next hempty =>
        rw [List.length_eq_zero_iff.mp hempty] at hrest hproper
        exact absurd (by rw [List.prefix_nil.mp hrest]) hproper
      · have hshort : rest.length < msg.length :=
          Nat.lt_of_le_of_ne hrest.length_le fun h => hproper (by rw [hrest.eq_of_length h])
        rw [feed_short (by exact hshort)]
        rintro ⟨hidle, -⟩
        cases hidle

/-- Inside a frame the task is not between two frames. -/
theorem not_idle_inside_frame (hreading : t.reading = .headerLength)
    (hsize : m.payload.length ≤ maxBepMessageSize) (hne : pre ≠ [])
    (hinitial : pre <+: codec.writeFrame m) (hproper : pre ≠ codec.writeFrame m) :
    ¬ Idle (pre.foldl (feed need (complete codec)) (t, [])) := by
  have hheader := codec.encode_length m.header
  have hmessage := @framePayload_length_lt codec m hsize
  unfold writeFrame at hinitial hproper
  set header := codec.encodeHeader m.header.toBepHeader
  set msg := codec.framePayload m
  have hlength : (beBytes 2 header.length).length = t.need := by simp [need, hreading]
  refine feed_initial (P := fun p => ¬ Idle p)
    (ne_nil_of_length_eq_add_one (length_beBytes 2 _)) hlength hinitial ?_ ?_
  · exact fun _ hidle => hne hidle.2
  · rintro rest hrest rfl
    simp only [complete, hreading, fromBe_beBytes_of_lt hheader, gotHeaderLength]
    rw [if_neg (by unfold maxBepHeaderSize; omega)]
    have hproper : rest ≠ header ++ (beBytes 4 msg.length ++ msg) := fun h => hproper (by rw [h])
    split
    next hempty =>
      rw [List.length_eq_zero_iff.mp hempty] at hrest hproper
      exact not_idle_inside_message rfl hmessage hrest hproper
    next hnonempty =>
      refine feed_initial (P := fun p => ¬ Idle p)
        (fun h => hnonempty (by rw [h]; rfl)) rfl hrest ?_ ?_
      · rintro - ⟨hidle, -⟩
        cases hidle
      · rintro tail htail rfl
        exact not_idle_inside_message rfl hmessage htail fun h => hproper (by rw [h])

theorem Delivers.next (h : Delivers codec p bytes (a :: arrivals))
    (hstep : arrive codec p a = p') (hbytes : arrivals.filterMap Arrival.byte? = more) :
    Delivers codec p' more arrivals := by
  subst hstep
  exact ⟨hbytes, h.alive⟩

theorem LengthsWhole.next (h : LengthsWhole codec p (a :: arrivals))
    (hstep : arrive codec p a = p') : LengthsWhole codec p' arrivals := by
  subst hstep
  exact fun before hbefore => h (a :: before) (List.cons_prefix_cons.mpr ⟨rfl, hbefore⟩)

/-- A timeout between two frames is counted, and one that is not the last the task waits for does no
harm. -/
theorem arrive_elapsed_of_idle (hreading : t.reading = .headerLength)
    (h : Delivers codec (t, []) bytes (.elapsed :: arrivals)) :
    ∃ t', arrive codec (t, []) .elapsed = (t', []) ∧ t'.reading = .headerLength ∧
      t'.received = t.received := by
  have halive := (h.next rfl rfl).alive
  simp only [arrive, elapsed, hreading] at halive ⊢
  split at halive
  · exact absurd (congrArg reading (run_failed rfl)) (halive _)
  next hfew =>
    rw [if_neg hfew]
    exact ⟨_, rfl, rfl, rfl⟩

/-- A timeout elsewhere is seen only by a task that has failed. -/
theorem failed_of_elapsed (hnot : ¬ Idle p) (h : Delivers codec p bytes (.elapsed :: arrivals))
    (hwhole : LengthsWhole codec p (.elapsed :: arrivals)) :
    ∃ error, p.1.reading = .failed error := by
  obtain ⟨t, got⟩ := p
  have halive := (h.next rfl rfl).alive
  cases hreading : t.reading with
  | failed error => exact ⟨error, rfl⟩
  | headerLength =>
    have hfirst : [Arrival.elapsed] <+: .elapsed :: arrivals :=
      List.cons_prefix_cons.mpr ⟨rfl, nil_prefix⟩
    exact absurd ⟨hreading, hwhole [] hfirst hreading⟩ hnot
  | header _ | messageLength _ | message _ _ =>
    simp only [arrive, elapsed, hreading] at halive
    exact absurd (congrArg reading (run_failed rfl)) (halive _)

/-- The rest of a frame arrives before anything else that the task sees. -/
theorem read_rest (h : Delivers codec p (bytes ++ more) arrivals)
    (hwhole : LengthsWhole codec p arrivals) (hinside : ∀ pre, pre <+: bytes → pre ≠ bytes →
      ¬ Idle (pre.foldl (feed need (complete codec)) p)) :
    let p' := bytes.foldl (feed need (complete codec)) p
    ∃ rest, Delivers codec p' more rest ∧ LengthsWhole codec p' rest ∧
      arrivals.foldl (arrive codec) p = rest.foldl (arrive codec) p' := by
  induction arrivals generalizing p bytes with
  | nil =>
    have hnil : bytes = [] ∧ more = [] := List.append_eq_nil_iff.mp h.bytes.symm
    rw [hnil.1, nil_append] at h
    rw [hnil.1]
    exact ⟨[], h, hwhole, rfl⟩
  | cons a arrivals ih =>
    cases bytes with
    | nil => exact ⟨a :: arrivals, h, hwhole, rfl⟩
    | cons b bytes =>
      cases a with
      | byte b' =>
        have hbytes := h.bytes
        simp only [filterMap_cons, Arrival.byte?, cons_append, List.cons.injEq] at hbytes
        obtain ⟨rfl, hbytes⟩ := hbytes
        refine ih (h.next rfl hbytes) (hwhole.next rfl) fun pre hpre hne => ?_
        exact hinside (b' :: pre) (List.cons_prefix_cons.mpr ⟨rfl, hpre⟩)
          fun heq => hne (List.cons.inj heq).2
      | elapsed =>
        have hnot : ¬ Idle p := hinside [] nil_prefix (cons_ne_nil _ _).symm
        obtain ⟨error, hfailed⟩ := failed_of_elapsed hnot h hwhole
        have hstay : arrive codec p .elapsed = p := by simp only [arrive, elapsed, hfailed]
        obtain ⟨rest, hrest⟩ := ih (h.next hstay h.bytes) (hwhole.next hstay) hinside
        refine ⟨rest, hrest.1, hrest.2.1, ?_⟩
        rw [foldl_cons, hstay]
        exact hrest.2.2

section
variable (hreading : t.reading = .headerLength)
include hreading

/-- Between two frames there is nothing but timeouts. -/
theorem read_first {b : UInt8} (h : Delivers codec (t, []) (b :: bytes) arrivals)
    (hwhole : LengthsWhole codec (t, []) arrivals) :
    ∃ t' rest, t'.reading = .headerLength ∧ t'.received = t.received ∧
      Delivers codec (t', [b]) bytes rest ∧ LengthsWhole codec (t', [b]) rest ∧
      arrivals.foldl (arrive codec) (t, []) = rest.foldl (arrive codec) (t', [b]) := by
  induction arrivals generalizing t with
  | nil => cases h.bytes
  | cons a arrivals ih =>
    cases a with
    | byte b' =>
      have hbytes := h.bytes
      simp only [filterMap_cons, Arrival.byte?, List.cons.injEq] at hbytes
      obtain ⟨rfl, hbytes⟩ := hbytes
      have hstep : arrive codec (t, []) (.byte b') = (t, [b']) := by
        simp [arrive, feed, need, hreading]
      exact ⟨t, arrivals, hreading, rfl, h.next hstep hbytes, hwhole.next hstep,
        by rw [foldl_cons, hstep]⟩
    | elapsed =>
      obtain ⟨t₁, hstep, hreading₁, hreceived₁⟩ := arrive_elapsed_of_idle hreading h
      obtain ⟨t', rest, hreading', hreceived', hrest⟩ :=
        ih hreading₁ (h.next hstep h.bytes) (hwhole.next hstep)
      rw [foldl_cons, hstep]
      exact ⟨t', rest, hreading', hreceived'.trans hreceived₁, hrest⟩

/-- After the last frame there is nothing but timeouts. -/
theorem read_none (h : Delivers codec (t, []) [] arrivals) :
    (arrivals.foldl (arrive codec) (t, [])).1.reading = .headerLength ∧
      (arrivals.foldl (arrive codec) (t, [])).1.received = t.received := by
  induction arrivals generalizing t with
  | nil => exact ⟨hreading, rfl⟩
  | cons a arrivals ih =>
    cases a with
    | byte b => cases h.bytes
    | elapsed =>
      obtain ⟨t', hstep, hreading', hreceived⟩ := arrive_elapsed_of_idle hreading h
      rw [foldl_cons, hstep, ← hreceived]
      exact ih hreading' (h.next hstep h.bytes)

/-- The whole frame that comes first. -/
theorem read_frame_first (hsize : m.payload.length ≤ maxBepMessageSize)
    (h : Delivers codec (t, []) (codec.writeFrame m ++ more) arrivals)
    (hwhole : LengthsWhole codec (t, []) arrivals) :
    ∃ t' rest, t'.reading = .headerLength ∧ t'.received = t.received ∧
      let p' := (codec.writeFrame m).foldl (feed need (complete codec)) (t', [])
      Delivers codec p' more rest ∧ LengthsWhole codec p' rest ∧
      arrivals.foldl (arrive codec) (t, []) = rest.foldl (arrive codec) p' := by
  obtain ⟨b, bytes, hframe⟩ : ∃ b bytes, codec.writeFrame m = b :: bytes :=
    exists_cons_of_ne_nil fun h => by
      have := congrArg length h
      simp [writeFrame] at this
  rw [hframe, cons_append] at h
  obtain ⟨t', arrivals', hreading', hreceived, h', hwhole', hrun⟩ := read_first hreading h hwhole
  have hfirst : feed need (complete codec) (t', []) b = (t', [b]) := by simp [feed, need, hreading']
  obtain ⟨rest, hrest, hwholeRest, hrun'⟩ := read_rest h' hwhole' (by
    intro pre hpre hne
    rw [← hfirst]
    exact @not_idle_inside_frame codec t' m (b :: pre) hreading' hsize (cons_ne_nil _ _)
      (hframe ▸ List.cons_prefix_cons.mpr ⟨rfl, hpre⟩)
      (hframe ▸ fun heq => hne (List.cons.inj heq).2))
  refine ⟨t', rest, hreading', hreceived, ?_⟩
  rw [hframe, foldl_cons, hfirst]
  exact ⟨hrest, hwholeRest, hrun.trans hrun'⟩

end

end deliveries

/-- The read task, between two frames, takes whatever comes next. -/
theorem run_delivers (hreading : t.reading = .headerLength)
    (hsize : ∀ m ∈ ms, m.payload.length ≤ maxBepMessageSize)
    (h : Delivers codec (t, []) (ms.flatMap codec.writeFrame) arrivals)
    (hwhole : LengthsWhole codec (t, []) arrivals) : ((∀ m ∈ ms, Sendable codec m) →
      (arrivals.foldl (arrive codec) (t, [])).1.reading = .headerLength ∧
      (arrivals.foldl (arrive codec) (t, [])).1.received =
        t.received ++ ms.map fun m => (m.header.messageType, m.payload)) ∧
    ((∃ m ∈ ms, ¬ Sendable codec m) →
      ∃ error, (arrivals.foldl (arrive codec) (t, [])).1.reading = .failed error) := by
  induction ms generalizing t arrivals with
  | nil =>
    obtain ⟨hreading', hreceived⟩ := read_none hreading h
    exact ⟨fun _ => ⟨hreading', by simp [hreceived]⟩, by simp⟩
  | cons m ms ih =>
    have hsize' := hsize m mem_cons_self
    rw [flatMap_cons] at h
    obtain ⟨t', rest, hreading', hreceived', hrest, hwholeRest, hrun⟩ :=
      read_frame_first hreading hsize' h hwhole
    rw [hrun]
    by_cases hm : Sendable codec m
    · rw [read_frame hreading' hm hsize'] at hrest hwholeRest ⊢
      obtain ⟨hgood, hbad⟩ :=
        ih rfl (fun m hm => hsize m (mem_cons_of_mem _ hm)) hrest hwholeRest
      refine ⟨fun hall => ?_, fun ⟨m', hm', hnot⟩ => ?_⟩
      · obtain ⟨hend, hreceived⟩ := hgood fun m hm => hall m (mem_cons_of_mem _ hm)
        refine ⟨hend, ?_⟩
        rw [hreceived]
        simp [receive, hreceived']
      · refine hbad ⟨m', ?_, hnot⟩
        rcases List.mem_cons.mp hm' with rfl | hm'
        · exact absurd hm hnot
        · exact hm'
    · obtain ⟨error, hfailed⟩ := read_frame_failed hreading' hm hsize'
      rw [run_failed hfailed]
      exact ⟨fun hall => absurd (hall m mem_cons_self) hm, fun _ => ⟨error, hfailed⟩⟩

/-- However the transport brings the bytes without the connection being given up, if no timeout
falls inside the length of a header, the messages arrive as they were sent exactly if each of them
is sendable. -/
theorem stream_round_trips_iff (hsize : ∀ m ∈ ms, m.payload.length ≤ maxBepMessageSize)
    (hdelivers : Delivers codec (start, []) (ms.flatMap codec.writeFrame) arrivals)
    (hwhole : LengthsWhole codec (start, []) arrivals) :
    RoundTrips codec ms arrivals ↔ ∀ m ∈ ms, Sendable codec m := by
  obtain ⟨hgood, hbad⟩ := run_delivers rfl hsize hdelivers hwhole
  constructor
  · rintro ⟨-, hok⟩
    by_contra hnot
    push Not at hnot
    obtain ⟨error, hfailed⟩ := hbad hnot
    exact hok error hfailed
  · intro hall
    obtain ⟨hreading, hreceived⟩ := hgood hall
    refine ⟨hreceived, fun error hfailed => ?_⟩
    rw [run, hreading] at hfailed
    cases hfailed

/-- The protobuf bytes of a header, of which fields with the default value are left out. -/
def encodeSmallHeader (h : BepHeader) : Bytes :=
  (if h.type = 0 then [] else [8, UInt8.ofNat h.type.toNat]) ++
    (if h.compression = 0 then [] else [16, UInt8.ofNat h.compression.toNat])

def decodeSmallHeader : Bytes → Except String BepHeader
  | [] => .ok ⟨0, 0⟩
  | [8, type] => .ok ⟨type.toNat, 0⟩
  | [16, compression] => .ok ⟨0, compression.toNat⟩
  | [8, type, 16, compression] => .ok ⟨type.toNat, compression.toNat⟩
  | _ => .error "invalid tag value"

/-- What is left of the number of literals, behind an LZ4 token that says 15. -/
def lengthBytes (n : Nat) : Bytes := replicate (n / 255) 255 ++ [UInt8.ofNat (n % 255)]

def readLength : Bytes → Nat × Bytes
  | [] => (0, [])
  | b :: rest => if b = 255 then ((readLength rest).1 + 255, (readLength rest).2)
    else (b.toNat, rest)

theorem readLength_lengthBytes (n : Nat) (rest : Bytes) :
    readLength (lengthBytes n ++ rest) = (n, rest) := by
  have hlast : UInt8.ofNat (n % 255) ≠ 255 := fun h => by
    have := congrArg UInt8.toNat h
    simp at this
    omega
  have hreplicate (k : Nat) : readLength (replicate k 255 ++ ([UInt8.ofNat (n % 255)] ++ rest)) =
      (255 * k + n % 255, rest) := by
    induction k with
    | zero =>
      simp [readLength, hlast]
      omega
    | succ k ih =>
      simp only [replicate_succ, cons_append, readLength, if_pos] at ih ⊢
      rw [ih]
      simp only [Prod.mk.injEq, and_true]
      omega
  rw [lengthBytes, append_assoc, hreplicate, Nat.div_add_mod]

/-- Headers as they are on the wire, and LZ4 blocks that are one sequence of literals. -/
def literalCodec : FrameCodec where
  encodeHeader := encodeSmallHeader
  decodeHeader := decodeSmallHeader
  compress payload := if payload.length < 15 then UInt8.ofNat (16 * payload.length) :: payload
    else 240 :: (lengthBytes (payload.length - 15) ++ payload)
  decompress
    | [], _ => .error "empty block"
    | token :: rest, size =>
      let (length, content) := if token < 240 then (token.toNat / 16, rest)
        else ((readLength rest).1 + 15, (readLength rest).2)
      if length = content.length ∧ (length : Int) ≤ size then .ok content
      else .error "not one sequence of literals"
  decode_encode := by
    rintro ⟨messageType, messageId, compressed⟩
    cases messageType <;> cases compressed <;> rfl
  encode_length h := by
    unfold encodeSmallHeader
    split <;> split <;> simp
  decompress_compress payload := by
    by_cases hshort : payload.length < 15
    · have htoken : UInt8.ofNat (16 * payload.length) < 240 := by
        rw [UInt8.lt_iff_toNat_lt]
        simp
        omega
      simp only [hshort, if_true, htoken]
      rw [if_pos]
      simp
      omega
    · simp only [hshort, if_false, readLength_lengthBytes, show ¬ (240 : UInt8) < 240 by decide]
      rw [if_pos]
      omega
  compress_length payload := by
    split <;> simp [lengthBytes] <;> omega

theorem stream_round_trips_ping :
    let ms : List OutgoingMessage := [⟨⟨.ping, 0, false⟩, []⟩, ⟨⟨.response, 0, true⟩, [7]⟩]
    RoundTrips literalCodec ms
      (.elapsed :: ms.flatMap fun m => (literalCodec.writeFrame m).map .byte) := by
  intro ms
  refine (stream_round_trips_iff (by decide) ⟨rfl, ?_⟩ ?_).mpr ?_
  · have hreading : (run literalCodec (.elapsed ::
        ms.flatMap fun m => (literalCodec.writeFrame m).map .byte)).1.reading = .headerLength := by
      decide +kernel
    intro context h
    rw [run] at hreading
    rw [hreading] at h
    cases h
  · intro before hbefore _
    -- Only the first arrival is a timeout.
    cases before with
    | nil => rfl
    | cons a before =>
      have hrest := (List.cons_prefix_cons.mp hbefore).2
      have hmem := hrest.subset (mem_append_right before (mem_singleton_self _))
      exact absurd hmem (by decide)
  · intro m hm
    rcases List.mem_cons.mp hm with rfl | hm
    · exact .inl rfl
    · rw [List.mem_singleton.mp hm]
      exact .inr ⟨by decide, by decide⟩

/-- An empty message flagged as compressed is refused by the reader. A timeout between the two
bytes of the length of a header loses the first of them, and the message with it. -/
theorem stream_not_round_tripped : (run literalCodec
        ((literalCodec.writeFrame ⟨⟨.ping, 0, true⟩, []⟩).map .byte)).1.reading =
      .failed (.protocol "compressed message too short") ∧
    ∃ first rest, literalCodec.writeFrame ⟨⟨.request, 0, false⟩, [7]⟩ = first :: rest ∧
      (run literalCodec (.byte first :: .elapsed :: rest.map .byte)).1.received = [] := by
  exact ⟨by decide, _, _, rfl, by decide⟩

end Syncthing
