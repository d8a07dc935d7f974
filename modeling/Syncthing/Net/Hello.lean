import Syncthing.Lib.Wire
import Syncthing.Net.Messages

/-! `send_hello` and `recv_hello` of `bep-protocol/src/handshake.rs`, and the second reader of the
same frames, `HelloMessage::decode` of `syncthing-net/src/protocol.rs`. -/
namespace Syncthing

open Wire List

def helloMagic : Nat := 0x2EA7D90B

def maxHelloSize : Nat := 1024

def oldMagic1 : Nat := 0x00010000

def oldMagic2 : Nat := 0x00010001

structure Hello where
  deviceName : String
  clientName : String
  clientVersion : String
  numConnections : Int32
  timestamp : Int64

/-- The protobuf encoding, with what is assumed of it. -/
structure HelloCodec where
  encode : Hello → Bytes
  decode : Bytes → Except String Hello
  decode_encode : ∀ hello, decode (encode hello) = .ok hello

inductive HelloError where
  | protocol (message : String)
  | unexpectedEof

/-- A number as in `0x{:08X}`. -/
def hexMagic (magic : Nat) : String :=
  "0x" ++ String.ofList ((Nat.toDigits 16 magic).leftpad 8 '0' |>.map Char.toUpper)

def helloTooLarge (len : Nat) : HelloError :=
  .protocol ("Hello too large: " ++ toString len ++ " > " ++ toString maxHelloSize)

def helloFrame (msgBytes : Bytes) : Bytes :=
  beBytes 4 helloMagic ++ (beBytes 2 msgBytes.length ++ msgBytes)

variable (codec : HelloCodec)

/-- What is written. -/
def sendHello (hello : Hello) : Except HelloError Bytes :=
  let msgBytes := codec.encode hello
  if msgBytes.length > maxHelloSize then .error (helloTooLarge msgBytes.length)
  else .ok (helloFrame msgBytes)

def readExact (n : Nat) (stream : Bytes) : Except HelloError (Bytes × Bytes) :=
  if stream.length < n then .error .unexpectedEof else .ok (stream.take n, stream.drop n)

/-- The Hello, and the stream behind it. -/
def recvHello (stream : Bytes) : Except HelloError (Hello × Bytes) := do
  let (magic, stream) ← readExact 4 stream
  if fromBe magic ≠ helloMagic then
    if fromBe magic = oldMagic1 ∨ fromBe magic = oldMagic2 then
      throw (.protocol "the remote device speaks an older version of the protocol")
    throw (.protocol ("unexpected magic: expected " ++ hexMagic helloMagic ++ ", got " ++
      hexMagic (fromBe magic)))
  let (len, stream) ← readExact 2 stream
  if fromBe len > maxHelloSize then throw (helloTooLarge (fromBe len))
  let (buf, stream) ← readExact (fromBe len) stream
  match codec.decode buf with
  | .error e => throw (.protocol ("hello decode: " ++ e))
  | .ok hello => return (hello, stream)

structure HelloMessage where
  deviceId : DeviceId
  deviceName : String
  clientName : String
  clientVersion : String
  protocols : List String

/-- `DeviceId::default()` is all zeros. -/
def HelloMessage.decode (codec : HelloCodec) (data : Bytes) : Except String HelloMessage :=
  if data.length < 6 then .error "Hello data too short"
  else
    let magic := fromBe (data.take 4)
    if magic ≠ helloMagic then
      .error ("invalid hello magic: expected " ++ hexMagic helloMagic ++ ", got " ++ hexMagic magic)
    else
      let len := fromBe ((data.drop 4).take 2)
      if data.length < 6 + len then .error "truncated hello data"
      else
        match codec.decode ((data.drop 6).take len) with
        | .error e => .error ("failed to decode hello: " ++ e)
        | .ok hello => .ok {
            deviceId := ⟨List.replicate 32 0⟩
            deviceName := hello.deviceName
            clientName := hello.clientName
            clientVersion := hello.clientVersion
            protocols := ["bep/1.0"] }

open HelloMessage (decode)

/-- Both readers reject the bytes, or both return the same names and version. -/
def SameHello (data : Bytes) : Prop :=
  match decode codec data, recvHello codec data with
  | .error _, .error _ => True
  | .ok message, .ok (hello, _) => message.deviceName = hello.deviceName ∧
      message.clientName = hello.clientName ∧ message.clientVersion = hello.clientVersion
  | _, _ => False

/-- What both readers check. -/
structure WholeHello (codec : HelloCodec) (data : Bytes) (hello : Hello) : Prop where
  start : 6 ≤ data.length
  magic : fromBe (data.take 4) = helloMagic
  body : 6 + fromBe ((data.drop 4).take 2) ≤ data.length
  decoded : codec.decode ((data.drop 6).take (fromBe ((data.drop 4).take 2))) = .ok hello

/-- A whole Hello that announces more than `MAX_HELLO_SIZE` bytes. -/
def OversizeHello (data : Bytes) : Prop :=
  maxHelloSize < fromBe ((data.drop 4).take 2) ∧ ∃ hello, WholeHello codec data hello

variable {codec : HelloCodec} {data msgBytes bytes rest : Bytes} {hello : Hello}

theorem announced_helloFrame (hlen : msgBytes.length < 256 ^ 2) :
    fromBe (((helloFrame msgBytes ++ rest).drop 4).take 2) = msgBytes.length := by
  rw [helloFrame, List.append_assoc, List.drop_left' (length_beBytes 4 _), List.append_assoc,
    List.take_left' (length_beBytes 2 _), fromBe_beBytes_of_lt hlen]

theorem drop_helloFrame : (helloFrame msgBytes ++ rest).drop 6 = msgBytes ++ rest := by
  rw [helloFrame, ← List.append_assoc, List.append_assoc, List.drop_left' (by simp)]

theorem wholeHello_helloFrame (hlen : msgBytes.length < 256 ^ 2) (rest : Bytes)
    (hdecode : codec.decode msgBytes = .ok hello) :
    WholeHello codec (helloFrame msgBytes ++ rest) hello where
  start := by simp [helloFrame]; omega
  magic := by
    rw [helloFrame, append_assoc, take_left' (length_beBytes 4 _)]
    exact fromBe_beBytes_of_lt (by decide)
  body := by
    rw [announced_helloFrame hlen]
    simp [helloFrame]; omega
  decoded := by rw [announced_helloFrame hlen, drop_helloFrame, take_left, hdecode]

theorem readExact_bind_eq_ok {α : Type} {n : Nat} {stream : Bytes}
    {f : Bytes × Bytes → Except HelloError α} {a : α} :
    readExact n stream >>= f = .ok a ↔
      n ≤ stream.length ∧ f (stream.take n, stream.drop n) = .ok a := by
  unfold readExact
  split
  · exact iff_of_false nofun fun h => absurd h.1 (by omega)
  · exact (and_iff_right (by omega)).symm

theorem throw_bind_ne_ok {α β : Type} {e : HelloError} {f : α → Except HelloError β} {b : β} :
    (throw e >>= f : Except HelloError β) ≠ .ok b := nofun

theorem recvHello_eq_ok (h : recvHello codec data = .ok (hello, rest)) :
    WholeHello codec data hello ∧ fromBe ((data.drop 4).take 2) ≤ maxHelloSize := by
  unfold recvHello at h
  rw [readExact_bind_eq_ok] at h
  obtain ⟨h4, h⟩ := h
  dsimp only at h
  split at h
  · split at h <;> exact absurd h throw_bind_ne_ok
  next hmagic =>
    rw [readExact_bind_eq_ok] at h
    obtain ⟨h6, h⟩ := h
    dsimp only at h
    split at h
    · exact absurd h throw_bind_ne_ok
    next hlen =>
      rw [readExact_bind_eq_ok, List.drop_drop] at h
      obtain ⟨hbody, h⟩ := h
      rw [length_drop] at h6 hbody
      split at h
      · cases h
      next hello' hdecode =>
        cases h
        exact ⟨⟨by omega, not_not.mp hmagic, by omega, hdecode⟩, Nat.le_of_not_lt hlen⟩

theorem recvHello_of_wholeHello (h : WholeHello codec data hello)
    (hlen : fromBe ((data.drop 4).take 2) ≤ maxHelloSize) :
    recvHello codec data = .ok (hello, data.drop (6 + fromBe ((data.drop 4).take 2))) := by
  obtain ⟨h6, hmagic, hbody, hdecode⟩ := h
  unfold recvHello
  rw [readExact_bind_eq_ok]
  refine ⟨by omega, ?_⟩
  dsimp only
  rw [if_neg (not_not.mpr hmagic), readExact_bind_eq_ok, length_drop]
  refine ⟨by omega, ?_⟩
  dsimp only
  rw [if_neg (Nat.not_lt.mpr hlen), readExact_bind_eq_ok, drop_drop, length_drop]
  refine ⟨by omega, ?_⟩
  simp only [hdecode, drop_drop]
  rfl

theorem recv_of_send (h : sendHello codec hello = .ok bytes) :
    recvHello codec (bytes ++ rest) = .ok (hello, rest) := by
  unfold sendHello at h
  dsimp only at h
  split at h
  · cases h
  next hle =>
    cases h
    have hlen : (codec.encode hello).length < 256 ^ 2 := by
      unfold maxHelloSize at hle
      omega
    rw [recvHello_of_wholeHello (wholeHello_helloFrame hlen rest (codec.decode_encode hello))]
    · rw [announced_helloFrame hlen, ← List.drop_drop, drop_helloFrame, List.drop_left]
    · rw [announced_helloFrame hlen]
      exact Nat.le_of_not_lt hle

theorem decode_of_wholeHello (h : WholeHello codec data hello) :
    ∃ message, decode codec data = .ok message ∧
      message.deviceName = hello.deviceName ∧ message.clientName = hello.clientName ∧
        message.clientVersion = hello.clientVersion := by
  unfold decode
  dsimp only
  rw [if_neg (Nat.not_lt.mpr h.start), if_neg (not_not.mpr h.magic), if_neg (Nat.not_lt.mpr h.body),
    h.decoded]
  exact ⟨_, rfl, rfl, rfl, rfl⟩

theorem decode_eq_ok {message : HelloMessage} (h : decode codec data = .ok message) :
    ∃ hello, WholeHello codec data hello := by
  unfold decode at h
  dsimp only at h
  split at h
  · cases h
  next hstart =>
    split at h
    · cases h
    next hmagic =>
      split at h
      · cases h
      next hbody =>
        split at h
        · cases h
        next hello hdecode =>
          exact ⟨hello, Nat.le_of_not_lt hstart, not_not.mp hmagic, Nat.le_of_not_lt hbody, hdecode⟩

theorem sameHello_iff : SameHello codec data ↔ ¬ OversizeHello codec data := by
  unfold SameHello OversizeHello
  by_cases hwhole : ∃ hello, WholeHello codec data hello
  · obtain ⟨hello, h⟩ := hwhole
    obtain ⟨message, hmessage, hnames⟩ := decode_of_wholeHello h
    rw [hmessage]
    by_cases hlen : fromBe ((data.drop 4).take 2) ≤ maxHelloSize
    · rw [recvHello_of_wholeHello h hlen]
      exact iff_of_true hnames fun hover => Nat.not_lt.mpr hlen hover.1
    · cases hrecv : recvHello codec data with
      | ok p => exact absurd (recvHello_eq_ok hrecv).2 hlen
      | error e => exact iff_of_false id (not_not.mpr ⟨Nat.lt_of_not_le hlen, hello, h⟩)
  · cases hmessage : decode codec data with
    | ok message => exact absurd (decode_eq_ok hmessage) hwhole
    | error e =>
      cases hrecv : recvHello codec data with
      | ok p => exact absurd ⟨p.1, (recvHello_eq_ok hrecv).1⟩ hwhole
      | error e' => exact iff_of_true trivial fun hover => hwhole hover.2

/-- A Hello that is sent is read back, and the readers differ on whole Hellos that announce too many
bytes only. -/
theorem hello_read_alike (codec : HelloCodec) :
    (∀ hello bytes rest, sendHello codec hello = .ok bytes →
      recvHello codec (bytes ++ rest) = .ok (hello, rest)) ∧
    ∀ data, SameHello codec data ↔ ¬ OversizeHello codec data :=
  ⟨fun _ _ _ => recv_of_send, fun _ => sameHello_iff⟩

variable (s : List Char)

def encodeText : Bytes := s.flatMap (fun c => 1 :: beBytes 4 c.toNat) ++ [0]

def decodeText : Bytes → List Char × Bytes
  | 1 :: w :: x :: y :: z :: rest =>
    let (s, rest) := decodeText rest
    (Char.ofNat (fromBe [w, x, y, z]) :: s, rest)
  | bytes => ([], bytes.drop 1)

theorem decodeText_encodeText (rest : Bytes) : decodeText (encodeText s ++ rest) = (s, rest) := by
  induction s with
  | nil => rfl
  | cons c s ih =>
    have hc : fromBe (beBytes 4 c.toNat) = c.toNat := fromBe_beBytes_of_lt c.val.toNat_lt
    change (Char.ofNat (fromBe (beBytes 4 c.toNat)) :: (decodeText (encodeText s ++ rest)).1,
      (decodeText (encodeText s ++ rest)).2) = _
    rw [ih, hc, Char.ofNat_toNat]

/-- Texts by code points, before the numbers. -/
def textCodec : HelloCodec where
  encode hello := encodeText hello.deviceName.toList ++ (encodeText hello.clientName.toList ++
      (encodeText hello.clientVersion.toList ++ (beBytes 4 hello.numConnections.toUInt32.toNat ++
        beBytes 8 hello.timestamp.toUInt64.toNat)))
  decode bytes := let (deviceName, bytes) := decodeText bytes
    let (clientName, bytes) := decodeText bytes
    let (clientVersion, bytes) := decodeText bytes
    .ok ⟨String.ofList deviceName, String.ofList clientName, String.ofList clientVersion,
      (UInt32.ofNat (fromBe (bytes.take 4))).toInt32,
      (UInt64.ofNat (fromBe (bytes.drop 4))).toInt64⟩
  decode_encode hello := by
    have h4 : fromBe (beBytes 4 hello.numConnections.toUInt32.toNat) =
        hello.numConnections.toUInt32.toNat := fromBe_beBytes_of_lt (UInt32.toNat_lt _)
    have h8 : fromBe (beBytes 8 hello.timestamp.toUInt64.toNat) =
        hello.timestamp.toUInt64.toNat := fromBe_beBytes_of_lt (UInt64.toNat_lt _)
    simp [decodeText_encodeText, List.take_left' (length_beBytes 4 _),
      List.drop_left' (length_beBytes 4 _), h4, h8]

/-- A Hello with a device name of 300 letters. -/
def longHello : Hello := ⟨String.ofList (List.replicate 300 'a'), "", "", 1, 0⟩

theorem length_encodeText : (encodeText s).length = 5 * s.length + 1 := by
  simp [encodeText, List.length_flatMap, Nat.mul_comm]

theorem length_longHello : (textCodec.encode longHello).length = 1515 := by
  have hname : longHello.deviceName.toList = List.replicate 300 'a' := String.toList_ofList
  simp only [textCodec, List.length_append, length_encodeText, length_beBytes]
  rw [hname, List.length_replicate]
  rfl

/-- It is too long to be sent, and one of the readers takes it. -/
theorem hello_not_read_alike : ¬ SameHello textCodec (helloFrame (textCodec.encode longHello)) := by
  have hlt : (textCodec.encode longHello).length < 256 ^ 2 := by
    rw [length_longHello]
    decide
  rw [← List.append_nil (helloFrame _), sameHello_iff, not_not, OversizeHello,
    announced_helloFrame hlt, length_longHello]
  exact ⟨by decide, longHello, wholeHello_helloFrame hlt [] (textCodec.decode_encode longHello)⟩

end Syncthing
