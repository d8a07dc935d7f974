import Syncthing.Net.Derp
import Mathlib.Algebra.Group.Int.Defs

/-! `syncthing-net/src/relay/protocol`: the XDR encoding of the messages, `read_message`, and the
loop in which the server cuts a buffer into messages. What has been encoded is read back by both. -/
namespace Syncthing.Relay

open Wire
open List

abbrev DeviceId := Derp.DeviceId

variable (bytes : Bytes)

def DeviceId.fromBytes : Except String DeviceId :=
  if h : bytes.length = 32 then .ok ⟨bytes, h⟩
  else .error "Device ID error: Invalid device ID length"

def magic : UInt32 := 0x9E79BC40

/-- The longest body that `read_message` takes. -/
def maxBodyLen : Nat := 1024 * 1024

def putU32 (v : UInt32) : Bytes := beBytes 4 v.toNat

def getU32 : UInt32 := UInt32.ofNat (fromBe (bytes.take 4))

def putI32 (v : Int32) : Bytes := putU32 v.toUInt32

def getI32 : Int32 := ⟨getU32 bytes⟩

inductive MessageType where
  | ping
  | pong
  | joinRelayRequest
  | joinSessionRequest
  | response
  | connectRequest
  | sessionInvitation
  | relayFull
  deriving DecidableEq

namespace MessageType

def code : MessageType → Int32
  | ping => 0
  | pong => 1
  | joinRelayRequest => 2
  | joinSessionRequest => 3
  | response => 4
  | connectRequest => 5
  | sessionInvitation => 6
  | relayFull => 7

def fromI32 (v : Int32) : Option MessageType :=
  if v = 0 then some ping
  else if v = 1 then some pong
  else if v = 2 then some joinRelayRequest
  else if v = 3 then some joinSessionRequest
  else if v = 4 then some response
  else if v = 5 then some connectRequest
  else if v = 6 then some sessionInvitation
  else if v = 7 then some relayFull
  else none

theorem fromI32_code (t : MessageType) : fromI32 t.code = some t := by
  cases t <;> rfl

end MessageType

structure Header where
  magic : UInt32
  messageType : MessageType
  messageLength : Int32
  deriving DecidableEq

namespace Header

def size : Nat := 12

def encode (h : Header) : Bytes :=
  putU32 h.magic ++ (putI32 h.messageType.code ++ putI32 h.messageLength)

def decode (buf : Bytes) : Option (Header × Bytes) :=
  if buf.length < size then none
  else (MessageType.fromI32 (getI32 (buf.drop 4))).map fun messageType =>
      (⟨getU32 buf, messageType, getI32 (buf.drop 8)⟩, buf.drop size)

end Header
open Header (decode size)

def paddedLen (len : Nat) : Nat := if len % 4 = 0 then len else len + (4 - len % 4)

def encodeOpaque (data : Bytes) : Bytes :=
  putU32 (.ofNat data.length) ++ (data ++ replicate ((4 - data.length % 4) % 4) 0)

def decodeOpaque (buf : Bytes) : Option (Bytes × Bytes) :=
  if buf.length < 4 then none
  else
    let len := (getU32 buf).toNat
    let buf := buf.drop 4
    if buf.length < paddedLen len then none else some (buf.take len, buf.drop (paddedLen len))

def encodeString (s : String) : Bytes := encodeOpaque s.toByteArray.data.toList

def decodeString (buf : Bytes) : Option (String × Bytes) := do
  let (bytes, rest) ← decodeOpaque buf
  let s ← String.fromUTF8? ⟨bytes.toArray⟩
  return (s, rest)

structure JoinSessionRequest where
  key : Bytes
  deriving DecidableEq

def JoinSessionRequest.decode (body : Bytes) : Option JoinSessionRequest := do
  let (key, _) ← decodeOpaque body
  return ⟨key⟩

structure Response where
  code : Int32
  message : String
  deriving DecidableEq

namespace Response

def decode (body : Bytes) : Option Response :=
  if body.length < 4 then none
  else do
    let (message, _) ← decodeString (body.drop 4)
    return ⟨getI32 body, message⟩

def success : Response := ⟨0, "success"⟩

def notFound : Response := ⟨1, "not found"⟩

end Response

structure ConnectRequest where
  id : Bytes
  deriving DecidableEq

def ConnectRequest.decode (body : Bytes) : Option ConnectRequest := do
  let (id, _) ← decodeOpaque body
  return ⟨id⟩

structure SessionInvitation where
  /-- `from` -/
  source : Bytes
  key : Bytes
  address : Bytes
  port : UInt32
  serverSocket : Bool
  deriving DecidableEq

def SessionInvitation.decode (body : Bytes) : Option SessionInvitation := do
  let (source, body) ← decodeOpaque body
  let (key, body) ← decodeOpaque body
  let (address, body) ← decodeOpaque body
  if body.length < 8 then none
  else return ⟨source, key, address, getU32 body, getU32 (body.drop 4) != 0⟩

inductive Message where
  | ping
  | pong
  | joinRelayRequest
  | joinSessionRequest (m : JoinSessionRequest)
  | response (m : Response)
  | connectRequest (m : ConnectRequest)
  | sessionInvitation (m : SessionInvitation)
  | relayFull
  deriving DecidableEq

/-- `RelayError` -/
inductive RelayError where
  | protocol (message : String)
  | connectionClosed
  | rejected (message : String)
  | relayFull
  | peerNotFound
  deriving DecidableEq

namespace Message

def messageType : Message → MessageType
  | ping => .ping
  | pong => .pong
  | joinRelayRequest => .joinRelayRequest
  | joinSessionRequest _ => .joinSessionRequest
  | response _ => .response
  | connectRequest _ => .connectRequest
  | sessionInvitation _ => .sessionInvitation
  | relayFull => .relayFull

def payloadLen : Message → Nat
  | joinSessionRequest m => 4 + paddedLen m.key.length
  | response m => 4 + 4 + paddedLen m.message.toByteArray.data.toList.length
  | connectRequest m => 4 + paddedLen m.id.length
  | sessionInvitation m =>
    4 + paddedLen m.source.length + 4 + paddedLen m.key.length + 4 + paddedLen m.address.length +
      4 + 4
  | ping | pong | joinRelayRequest | relayFull => 0

def body : Message → Bytes
  | joinSessionRequest m => encodeOpaque m.key
  | response m => putI32 m.code ++ encodeString m.message
  | connectRequest m => encodeOpaque m.id
  | sessionInvitation m =>
    encodeOpaque m.source ++ (encodeOpaque m.key ++ (encodeOpaque m.address ++
      (putU32 m.port ++ putU32 (if m.serverSocket then 1 else 0))))
  | ping | pong | joinRelayRequest | relayFull => []

def encode (m : Message) : Bytes :=
  Header.encode ⟨magic, m.messageType, .ofNat m.payloadLen⟩ ++ m.body

/-- A message of a type, from its body. -/
def decodeBody (body : Bytes) : MessageType → Except RelayError Message
  | .ping => .ok ping
  | .pong => .ok pong
  | .joinRelayRequest => .ok joinRelayRequest
  | .joinSessionRequest =>
    match JoinSessionRequest.decode body with
    | some m => .ok (joinSessionRequest m)
    | none => .error (.protocol "bad JoinSessionRequest")
  | .response =>
    match Response.decode body with
    | some m => .ok (response m)
    | none => .error (.protocol "bad Response")
  | .connectRequest =>
    match ConnectRequest.decode body with
    | some m => .ok (connectRequest m)
    | none => .error (.protocol "bad ConnectRequest")
  | .sessionInvitation =>
    match SessionInvitation.decode body with
    | some m => .ok (sessionInvitation m)
    | none => .error (.protocol "bad SessionInvitation")
  | .relayFull => .ok relayFull

end Message
open Relay.Message (body decodeBody messageType payloadLen)

/-- Eight digits of a number. -/
def hex (v : UInt32) : String := String.ofList ((Nat.toDigits 16 v.toNat).leftpad 8 '0')

/-- `read_message`, and what it leaves of the stream; nothing while it waits for more bytes. -/
def readMessage (stream : Bytes) : Option (Except RelayError Message × Bytes) :=
  if stream.length < size then none
  else
    match decode (stream.take size) with
    | none => some (.error (.protocol "invalid header"), stream.drop size)
    | some (header, _) =>
      let rest := stream.drop size
      -- a negative length becomes a huge one
      let bodyLen := (header.messageLength.toInt % 2 ^ 64).toNat
      if header.magic ≠ magic then
        some (.error (.protocol ("bad magic: " ++ hex header.magic)), rest)
      else if bodyLen > maxBodyLen then
        some (.error (.protocol ("message too large: " ++ toString bodyLen ++ " bytes")), rest)
      else if rest.length < bodyLen then none
      else some (decodeBody (rest.take bodyLen) header.messageType, rest.drop bodyLen)

/-- The messages that the server finds in a buffer, each with its body. Every one takes at least the
bytes of a header, so that the length of the buffer is enough fuel. -/
def cutMessages : Nat → Bytes → List (MessageType × Bytes)
  | 0, _ => []
  | fuel + 1, data =>
    match decode data with
    | none => []
    | some (header, data) =>
      let bodyLen := header.messageLength.toInt.toNat
      if header.magic ≠ magic then []
      else if data.length < bodyLen then []
      else (header.messageType, data.take bodyLen) :: cutMessages fuel (data.drop bodyLen)

section roundTrip

variable {m : Message} {data rest : Bytes} (v : UInt32)

theorem length_putU32 : (putU32 v).length = 4 := length_beBytes 4 _

theorem length_putI32 (v : Int32) : (putI32 v).length = 4 := length_putU32 _

theorem getU32_putU32 : getU32 (putU32 v ++ rest) = v := by
  have hlt : v.toNat < 256 ^ 4 := v.toNat_lt
  rw [getU32, take_left' (length_putU32 v), putU32, fromBe_beBytes_of_lt hlt, UInt32.ofNat_toNat]

theorem getI32_putI32 (v : Int32) : getI32 (putI32 v ++ rest) = v := by
  rw [getI32, putI32, getU32_putU32]

theorem length_encodeHeader (h : Header) : h.encode.length = Header.size := by
  simp only [Header.encode, length_append, length_putU32, length_putI32, Header.size]

theorem decode_encodeHeader (h : Header) : decode (h.encode ++ rest) = some (h, rest) := by
  have hsize : ¬ (h.encode ++ rest).length < size := by
    rw [length_append, length_encodeHeader]
    omega
  have hdrop4 : (h.encode ++ rest).drop 4 =
      putI32 h.messageType.code ++ (putI32 h.messageLength ++ rest) := by
    rw [Header.encode, append_assoc, drop_left' (length_putU32 _), append_assoc]
  have hdrop8 : (h.encode ++ rest).drop 8 = putI32 h.messageLength ++ rest := by
    rw [show 8 = 4 + 4 from rfl, ← drop_drop, hdrop4, drop_left' (length_putI32 _)]
  have hmagic : getU32 (h.encode ++ rest) = h.magic := by
    rw [Header.encode, append_assoc, getU32_putU32]
  rw [decode, if_neg hsize, hdrop4, hdrop8, hmagic, getI32_putI32, getI32_putI32,
    MessageType.fromI32_code, drop_left' (length_encodeHeader h)]
  rfl

theorem paddedLen_eq (n : Nat) : paddedLen n = n + (4 - n % 4) % 4 := by
  unfold paddedLen
  split <;> omega

theorem length_encodeOpaque : (encodeOpaque data).length = 4 + paddedLen data.length := by
  rw [encodeOpaque, length_append, length_append, length_replicate, length_putU32,
    paddedLen_eq]

theorem decodeOpaque_encodeOpaque (h : data.length ≤ maxBodyLen) :
    decodeOpaque (encodeOpaque data ++ rest) = some (data, rest) := by
  have hlen : (UInt32.ofNat data.length).toNat = data.length := by
    refine UInt32.toNat_ofNat_of_lt' (Nat.lt_of_le_of_lt h ?_)
    decide
  have hsize : (encodeOpaque data ++ rest).length = 4 + paddedLen data.length + rest.length := by
    rw [length_append, length_encodeOpaque]
  have hdrop : (encodeOpaque data ++ rest).drop 4 =
      (data ++ replicate ((4 - data.length % 4) % 4) 0) ++ rest := by
    rw [encodeOpaque, append_assoc, drop_left' (length_putU32 _)]
  have hgot : getU32 (encodeOpaque data ++ rest) = .ofNat data.length := by
    rw [encodeOpaque, append_assoc, getU32_putU32]
  have hpadded : (data ++ replicate ((4 - data.length % 4) % 4) (0 : UInt8)).length =
      paddedLen data.length := by
    rw [length_append, length_replicate, paddedLen_eq]
  unfold decodeOpaque
  simp only [hgot, hlen, hdrop]
  rw [if_neg (by omega), if_neg (by rw [length_append, hpadded]; omega),
    drop_left' hpadded, append_assoc, take_left]

theorem decodeString_encodeString {s : String} (h : s.toByteArray.data.toList.length ≤ maxBodyLen) :
    decodeString (encodeString s ++ rest) = some (s, rest) := by
  have hstring : String.fromUTF8? ⟨s.toByteArray.data.toList.toArray⟩ = some s := by
    rw [Array.toArray_toList, String.fromUTF8?, dif_pos s.isValidUTF8]
    rfl
  simp only [decodeString, encodeString, decodeOpaque_encodeOpaque h, hstring, bind, Option.bind,
    pure]

/-- A message whose body `read_message` takes. -/
def Message.Fits (m : Message) : Prop := m.payloadLen ≤ maxBodyLen

theorem length_body : m.body.length = m.payloadLen := by
  cases m with
  | joinSessionRequest | connectRequest => exact length_encodeOpaque
  | response m =>
    rw [body, length_append, length_putI32, encodeString, length_encodeOpaque,
      payloadLen, Nat.add_assoc]
  | sessionInvitation m =>
    simp only [body, payloadLen, length_append, length_encodeOpaque, length_putU32]
    omega
  | ping | pong | joinRelayRequest | relayFull => rfl

theorem le_paddedLen (n : Nat) : n ≤ paddedLen n := by
  rw [paddedLen_eq]
  omega

theorem connectRequest_decode (h : data.length ≤ maxBodyLen) :
    ConnectRequest.decode (encodeOpaque data) = some ⟨data⟩ := by
  have := @decodeOpaque_encodeOpaque data [] h
  rw [append_nil] at this
  simp only [ConnectRequest.decode, this, bind, Option.bind, pure]

theorem decodeBody_body (h : m.Fits) : decodeBody m.body m.messageType = .ok m := by
  unfold Message.Fits at h
  cases m with
  | joinSessionRequest m =>
    have hkey := le_paddedLen m.key.length
    simp only [payloadLen] at h
    have := @decodeOpaque_encodeOpaque m.key [] (by omega)
    rw [append_nil] at this
    simp only [decodeBody, messageType, body, JoinSessionRequest.decode,
      this, bind, Option.bind, pure]
  | response m =>
    have hmessage := le_paddedLen m.message.toByteArray.data.toList.length
    simp only [payloadLen] at h
    have hstring := @decodeString_encodeString [] m.message (by omega)
    rw [append_nil] at hstring
    have hlong : ¬ (putI32 m.code ++ encodeString m.message).length < 4 := by
      rw [length_append, length_putI32]
      omega
    simp only [decodeBody, messageType, body, Response.decode,
      if_neg hlong, drop_left' (length_putI32 _), hstring, getI32_putI32, bind, Option.bind,
      pure]
  | connectRequest m =>
    have hid := le_paddedLen m.id.length
    simp only [payloadLen] at h
    simp only [decodeBody, messageType, body,
      connectRequest_decode (show m.id.length ≤ maxBodyLen by omega)]
  | sessionInvitation m =>
    have hsource := le_paddedLen m.source.length
    have hkey := le_paddedLen m.key.length
    have haddress := le_paddedLen m.address.length
    simp only [payloadLen] at h
    have hsocket : (putU32 (if m.serverSocket then 1 else 0)) ++ [] =
        putU32 (if m.serverSocket then 1 else 0) := append_nil _
    have hlong : ¬ (putU32 m.port ++ putU32 (if m.serverSocket then 1 else 0)).length < 8 := by
      rw [length_append, length_putU32, length_putU32]
      omega
    have hbool : (getU32 (putU32 (if m.serverSocket then 1 else 0)) != 0) = m.serverSocket := by
      rw [← hsocket, getU32_putU32]
      cases m.serverSocket <;> rfl
    simp only [decodeBody, messageType, body, SessionInvitation.decode,
      decodeOpaque_encodeOpaque (show m.source.length ≤ maxBodyLen by omega),
      decodeOpaque_encodeOpaque (show m.key.length ≤ maxBodyLen by omega),
      decodeOpaque_encodeOpaque (show m.address.length ≤ maxBodyLen by omega),
      if_neg hlong, getU32_putU32, drop_left' (length_putU32 _), hbool, bind, Option.bind,
      pure]
  | ping | pong | joinRelayRequest | relayFull => rfl

theorem toInt_payloadLen (h : m.Fits) : (Int32.ofNat m.payloadLen).toInt = m.payloadLen := by
  refine Int32.toInt_ofNat_of_lt (Nat.lt_of_le_of_lt h ?_)
  decide

/-- A message is read from a stream that begins with it. -/
theorem readMessage_encode (h : m.Fits) : readMessage (m.encode ++ rest) = some (.ok m, rest) := by
  have hheader := length_encodeHeader ⟨magic, m.messageType, .ofNat m.payloadLen⟩
  have hlong : ¬ (m.encode ++ rest).length < size := by
    rw [Message.encode, length_append, length_append, hheader]
    omega
  have htake : (m.encode ++ rest).take size =
      Header.encode ⟨magic, m.messageType, .ofNat m.payloadLen⟩ ++ [] := by
    rw [Message.encode, append_assoc, take_left' hheader, append_nil]
  have hdrop : (m.encode ++ rest).drop size = m.body ++ rest := by
    rw [Message.encode, append_assoc, drop_left' hheader]
  have hlen : ((m.payloadLen : Int) % 2 ^ 64).toNat = m.payloadLen := by
    have hbound : (m.payloadLen : Int) < 2 ^ 64 := by
      refine Int.lt_of_le_of_lt (Int.ofNat_le.mpr h) ?_
      decide
    rw [Int.emod_eq_of_lt (Int.natCast_nonneg _) hbound, Int.toNat_natCast]
  unfold readMessage
  rw [if_neg hlong, htake, decode_encodeHeader]
  simp only [hdrop, toInt_payloadLen h, hlen, ne_eq, not_true_eq_false, if_false]
  rw [if_neg (Nat.not_lt.mpr h), if_neg (by rw [length_append, length_body]; omega),
    take_left' length_body, drop_left' length_body, decodeBody_body h]

/-- Messages that come in one buffer are all found in it. -/
theorem cutMessages_flatMap {ms : List Message} {fuel : Nat} (h : ∀ m ∈ ms, m.Fits)
    (hfuel : ms.length ≤ fuel) :
    cutMessages fuel (ms.flatMap Message.encode) = ms.map fun m => (m.messageType, m.body) := by
  induction ms generalizing fuel with
  | nil =>
    cases fuel with
    | zero => rfl
    | succ fuel => rfl
  | cons m ms ih =>
    obtain ⟨fuel, rfl⟩ : ∃ n, fuel = n + 1 := ⟨fuel - 1, by rw [length_cons] at hfuel; omega⟩
    rw [length_cons] at hfuel
    have hm := h m mem_cons_self
    have ih := @ih fuel (fun m hm => h m (mem_cons_of_mem _ hm)) (by omega)
    rw [flatMap_cons, Message.encode, append_assoc, cutMessages, decode_encodeHeader]
    simp only [toInt_payloadLen hm, Int.toNat_natCast, ne_eq, not_true_eq_false, if_false]
    rw [if_neg (by rw [length_append, length_body]; omega), take_left' length_body,
      drop_left' length_body, ih, map_cons]

theorem length_le_flatMap_encode (ms : List Message) :
    ms.length ≤ (ms.flatMap Message.encode).length := by
  induction ms with
  | nil => exact Nat.le_refl _
  | cons m ms ih =>
    rw [flatMap_cons, length_append, length_cons, Message.encode, length_append,
      length_encodeHeader, size]
    omega

end roundTrip

end Syncthing.Relay
