import Syncthing.Core.Types
import Syncthing.Lib.Mailbox
import Syncthing.Lib.Wire

/-! `syncthing-net/src/derp`: the frames, the relay server and the two halves of a pipe. A stream is
the list of the bytes that have been written and not been read. Frames are written and read whole:
of a frame that is cut off nothing is ever looked at. -/
namespace Syncthing.Derp

open Wire Function

/-- The array of 32 bytes that frames carry. -/
structure DeviceId where
  bytes : Bytes
  size : bytes.length = 32
  deriving DecidableEq

def maxFrameSize : Nat := 1000000

inductive FrameType where
  | clientInfo
  | serverInfo
  | sendPacket
  | recvPacket
  | keepAlive
  | closePeer
  deriving DecidableEq

namespace FrameType

def code : FrameType → UInt8
  | clientInfo => 0x01
  | serverInfo => 0x02
  | sendPacket => 0x03
  | recvPacket => 0x04
  | keepAlive => 0x05
  | closePeer => 0x06

def fromU8 (v : UInt8) : Option FrameType :=
  if v = 0x01 then some clientInfo
  else if v = 0x02 then some serverInfo
  else if v = 0x03 then some sendPacket
  else if v = 0x04 then some recvPacket
  else if v = 0x05 then some keepAlive
  else if v = 0x06 then some closePeer
  else none

theorem fromU8_code (t : FrameType) : fromU8 t.code = some t := by
  cases t <;> rfl

end FrameType

inductive Frame where
  | clientInfo (deviceId : DeviceId) (version : UInt8)
  | serverInfo (version : UInt8)
  | sendPacket (target : DeviceId) (payload : Bytes)
  | recvPacket (sender : DeviceId) (payload : Bytes)
  | keepAlive
  | closePeer (target : DeviceId)
  deriving DecidableEq

/-- Why a frame is not decoded. Reading past the end of the buffer panics. -/
inductive DecodeError where
  | protocol (message : String)
  | panicked
  deriving DecidableEq

def takeBytes (n : Nat) (buf : Bytes) : Except DecodeError (Bytes × Bytes) :=
  if buf.length < n then .error .panicked else .ok (buf.take n, buf.drop n)

def takeByte : Bytes → Except DecodeError (UInt8 × Bytes)
  | [] => .error .panicked
  | b :: buf => .ok (b, buf)

def takeId (buf : Bytes) : Except DecodeError (DeviceId × Bytes) :=
  if h : (buf.take 32).length = 32 then .ok (⟨buf.take 32, h⟩, buf.drop 32) else .error .panicked

namespace Frame

def frameType : Frame → FrameType
  | clientInfo .. => .clientInfo
  | serverInfo _ => .serverInfo
  | sendPacket .. => .sendPacket
  | recvPacket .. => .recvPacket
  | keepAlive => .keepAlive
  | closePeer _ => .closePeer

def packetFields (id : DeviceId) (payload : Bytes) : Bytes :=
  id.bytes ++ beBytes 4 payload.length ++ payload

def fields : Frame → Bytes
  | clientInfo deviceId version => deviceId.bytes ++ [version]
  | serverInfo version => [version]
  | sendPacket target payload => packetFields target payload
  | recvPacket sender payload => packetFields sender payload
  | keepAlive => []
  | closePeer target => target.bytes

/-- The type and the fields, behind their length. -/
def encode (f : Frame) : Bytes := beBytes 4 (f.fields.length + 1) ++ f.frameType.code :: f.fields

def decodePacket (kind : String) (make : DeviceId → Bytes → Frame) (payloadLen : Nat)
    (buf : Bytes) : Except DecodeError Frame := do
  if payloadLen < 1 + 32 + 4 then throw (.protocol (kind ++ " frame too short"))
  let (id, buf) ← takeId buf
  let (len, buf) ← takeBytes 4 buf
  let dataLen := fromBe len
  if payloadLen < 1 + 32 + 4 + dataLen then throw (.protocol (kind ++ " payload truncated"))
  let (payload, _) ← takeBytes dataLen buf
  return make id payload

def decodeFields (payloadLen : Nat) (buf : Bytes) : FrameType → Except DecodeError Frame
  | .clientInfo => do
    if payloadLen < 1 + 32 then throw (.protocol "ClientInfo frame too short")
    let (deviceId, buf) ← takeId buf
    let (version, _) ← takeByte buf
    return clientInfo deviceId version
  | .serverInfo => do
    if payloadLen < 2 then throw (.protocol "ServerInfo frame too short")
    let (version, _) ← takeByte buf
    return serverInfo version
  | .sendPacket => decodePacket "SendPacket" sendPacket payloadLen buf
  | .recvPacket => decodePacket "RecvPacket" recvPacket payloadLen buf
  | .keepAlive => return keepAlive
  | .closePeer => do
    if payloadLen < 1 + 32 then throw (.protocol "ClosePeer frame too short")
    let (target, _) ← takeId buf
    return closePeer target

/-- The frame at the start of a buffer and its length; nothing if more data is needed. -/
def decode (buf : Bytes) : Except DecodeError (Option (Frame × Nat)) := do
  if buf.length < 4 then return none
  let payloadLen := fromBe (buf.take 4)
  if payloadLen > maxFrameSize then
    throw (.protocol ("DERP frame too large: " ++ toString payloadLen ++ " > " ++
      toString maxFrameSize))
  if buf.length < 4 + payloadLen then return none
  if payloadLen < 1 then throw (.protocol "DERP frame too short")
  let (type, buf) ← takeByte (buf.drop 4)
  match FrameType.fromU8 type with
  | none => throw (.protocol "unknown DERP frame type")
  | some type => return some (← decodeFields payloadLen buf type, 4 + payloadLen)

end Frame

/-- What the loops that read frames find at the start of a stream. -/
inductive NextFrame where
  | incomplete
  | oversized
  | frame (buf rest : Bytes)
  deriving DecidableEq

def nextFrame (stream : Bytes) : NextFrame :=
  if stream.length < 4 then .incomplete
  else
    let payloadLen := fromBe (stream.take 4)
    if payloadLen > maxFrameSize then .oversized
    else if stream.length < 4 + payloadLen then .incomplete
    else .frame (stream.take (4 + payloadLen)) (stream.drop (4 + payloadLen))

def channelCapacity : Nat := 1024

/-- A connection of the server, after its `ClientInfo` has been answered. -/
structure Conn where
  device : DeviceId
  /-- What the client has written. -/
  inbound : Bytes
  /-- The channel of the client handle. -/
  queue : Mailbox Frame channelCapacity
  /-- What the client has still to read. -/
  outbound : Bytes
  /-- The handler has not ended. -/
  running : Bool
  /-- The stream has failed. -/
  broken : Bool
  /-- The handle of a later connection that the handler took from the table at its end. -/
  removed : Option Nat

structure Server where
  conns : Nat → Option Conn
  clients : DeviceId → Option Nat

namespace Server

variable (s : Server) (c : Nat)

def setConn (conn : Conn) : Server := { s with conns := update s.conns c (some conn) }

variable (device : DeviceId)

/-- Registers a client. A connection the device had is no longer in the table. -/
def accept : Server :=
  if (s.conns c).isSome then s
  else
    { conns := update s.conns c (some ⟨device, [], .empty, [], true, false, none⟩)
      clients := update s.clients device (some c) }

/-- A client writes to its stream. -/
def arrive (bytes : Bytes) : Server :=
  match s.conns c with
  | none => s
  | some conn => s.setConn c { conn with inbound := conn.inbound ++ bytes }

/-- The end of a handler: its client leaves the table, and a later one of the device with it. -/
def hangUp : Server :=
  match s.conns c with
  | none => s
  | some conn =>
    if !conn.running then s
    else
      { conns := update s.conns c (some { conn with
          running := false
          queue := .empty
          removed := (s.clients conn.device).filter (· ≠ c) })
        clients := update s.clients conn.device none }

/-- The later one is put back. -/
def reinsert : Server :=
  match s.conns c with
  | none => s
  | some conn =>
    match conn.removed with
    | none => s
    | some later =>
      { s.setConn c { conn with removed := none } with
        clients := update s.clients conn.device (some later) }

/-- Passes a packet on, unless the target is not there or its channel has no room. -/
def forward (sender target : DeviceId) (payload : Bytes) : Server :=
  match s.clients target with
  | none => s
  | some c =>
    match s.conns c with
    | none => s
    | some conn =>
      if conn.running then
        s.setConn c { conn with queue := conn.queue.trySend (.recvPacket sender payload) }
      else s

/-- One frame for `read_task`. -/
def readTask : Server :=
  match s.conns c with
  | none => s
  | some conn =>
    if !conn.running then s
    else
      match nextFrame conn.inbound with
      | .incomplete => s
      | .oversized => s.hangUp c
      | .frame buf rest =>
        match Frame.decode buf with
        | .ok (some (.sendPacket target payload, _)) =>
          (s.setConn c { conn with inbound := rest }).forward conn.device target payload
        | .ok _ | .error (.protocol _) => s.setConn c { conn with inbound := rest }
        -- a panic ends the handler before it cleans up
        | .error .panicked =>
          s.setConn c { conn with inbound := rest, running := false, queue := .empty }

/-- One frame for `write_task`. -/
def writeTask : Server :=
  match s.conns c with
  | none => s
  | some conn =>
    match conn.queue.recv with
    | (none, _) => s
    | (some frame, queue) =>
      if !conn.running then s
      else if conn.broken then s.hangUp c
      else s.setConn c { conn with queue, outbound := conn.outbound ++ frame.encode }

/-- The stream of a connection fails. -/
def reset : Server :=
  match s.conns c with
  | none => s
  | some conn => s.setConn c { conn with broken := true }

/-- A client that has been silent for too long leaves the table and is told so. -/
def timeOut : Server :=
  match s.clients device with
  | none => s
  | some c =>
    let s := { s with clients := update s.clients device none }
    match s.conns c with
    | none => s
    | some conn =>
      if conn.running then s.setConn c { conn with queue := conn.queue.trySend (.closePeer device) }
      else s

def connected : Bool := (s.conns c).any fun conn => conn.running && !conn.broken

end Server

/-- The sending half of a pipe. -/
structure SendHalf where
  writeTx : Mailbox Bytes channelCapacity
  /-- The channel has not been swapped for a closed one. -/
  isOpen : Bool
  /-- `send_task` has not ended. -/
  running : Bool

/-- The receiving half of a pipe. -/
structure RecvHalf where
  /-- `recv_task` has not ended. -/
  running : Bool
  readRx : Mailbox Bytes channelCapacity
  readBuffer : Bytes

/-- A pipe that is written and the pipe of its peer that is read, on two connections of a server. -/
structure Relaying where
  target : DeviceId
  source : Nat
  sink : Nat
  server : Server
  writer : SendHalf
  reader : RecvHalf
  /-- What writes have reported as written. -/
  written : Bytes
  /-- What reads have returned. -/
  returned : Bytes
  /-- A read has returned the end of file. -/
  eof : Bool

inductive RelayEvent where
  | write (buf : Bytes)
  | shutdown
  | drop
  | send
  | accept (c : Nat) (device : DeviceId)
  | arrive (c : Nat) (bytes : Bytes)
  | readTask (c : Nat)
  | writeTask (c : Nat)
  | hangUp (c : Nat)
  | reinsert (c : Nat)
  | reset (c : Nat)
  | timeOut (device : DeviceId)
  | receive
  | endOfStream
  | read (n : Nat)

namespace Relaying

variable (s : Relaying)

def onServer (server : Server) : Relaying := { s with server }

/-- `poll_write`. -/
def write (buf : Bytes) : Relaying :=
  if s.writer.isOpen && s.writer.running && s.writer.writeTx.queue.length < channelCapacity then
    { s with
      writer := { s.writer with
        writeTx := s.writer.writeTx.trySend (Frame.sendPacket s.target buf).encode }
      written := s.written ++ buf }
  else s

/-- `poll_shutdown`: what is in the channel is still sent. -/
def shutdown : Relaying := { s with writer := { s.writer with isOpen := false } }

def drop : Relaying := { s with writer := ⟨.empty, false, false⟩ }

/-- One turn of `send_task`. -/
def send : Relaying :=
  if !s.writer.running then s
  else
    match s.writer.writeTx.recv with
    | (none, _) =>
      if s.writer.isOpen then s else { s with writer := { s.writer with running := false } }
    | (some data, writeTx) =>
      if s.server.connected s.source then
        { s with server := s.server.arrive s.source data, writer := { s.writer with writeTx } }
      else { s with writer := { s.writer with writeTx := .empty, running := false } }

def stopReader : Relaying := { s with reader := { s.reader with running := false } }

/-- One frame for `recv_task`. -/
def receive : Relaying :=
  match s.server.conns s.sink with
  | none => s
  | some conn =>
    if !s.reader.running then s
    else
      match nextFrame conn.outbound with
      | .incomplete => s
      | .oversized => s.stopReader
      | .frame buf rest =>
        let s := s.onServer (s.server.setConn s.sink { conn with outbound := rest })
        match Frame.decode buf with
        | .ok (some (.recvPacket _ payload, _)) =>
          if s.reader.readRx.queue.length < channelCapacity then
            { s with reader := { s.reader with readRx := s.reader.readRx.trySend payload } }
          else s.stopReader
        | .ok _ => s
        | .error _ => s.stopReader

/-- `recv_task` comes to the end of its stream, or it fails. -/
def endOfStream : Relaying := if s.server.connected s.sink then s else s.stopReader

/-- `poll_read` with room for `n` bytes. A read that returns nothing has come to the end of the
file. -/
def read (n : Nat) : Relaying :=
  if !s.reader.readBuffer.isEmpty then { s with
      reader := { s.reader with readBuffer := s.reader.readBuffer.drop n }
      returned := s.returned ++ s.reader.readBuffer.take n }
  else
    match s.reader.readRx.recv with
    | (some bytes, readRx) =>
      { s with
        reader := { s.reader with readRx, readBuffer := bytes.drop n }
        returned := s.returned ++ bytes.take n
        eof := s.eof || (0 < n && bytes.isEmpty) }
    | (none, _) => if s.reader.running then s else { s with eof := s.eof || 0 < n }

/-- One step of the pipes, of the server or of its other clients. What is not possible in a state
leaves it as it is. -/
def apply : RelayEvent → Relaying
  | .write buf => s.write buf
  | .shutdown => s.shutdown
  | .drop => s.drop
  | .send => s.send
  | .accept c device => s.onServer (s.server.accept c device)
  -- the only frames of the source are those of the pipe
  | .arrive c bytes => if c = s.source then s else s.onServer (s.server.arrive c bytes)
  | .readTask c => s.onServer (s.server.readTask c)
  | .writeTask c => s.onServer (s.server.writeTask c)
  | .hangUp c => s.onServer (s.server.hangUp c)
  | .reinsert c => s.onServer (s.server.reinsert c)
  | .reset c => s.onServer (s.server.reset c)
  | .timeOut device => s.onServer (s.server.timeOut device)
  | .receive => s.receive
  | .endOfStream => s.endOfStream
  | .read n => s.read n

/-- The writer, or one of the two connections, has been closed. -/
def closed : Bool := !s.writer.isOpen || !s.server.connected s.source || !s.server.connected s.sink

/-- Nothing is on its way. -/
def Drained : Prop :=
  s.writer.writeTx.queue = [] ∧ (∀ conn, s.server.conns s.source = some conn → conn.inbound = []) ∧
    (∀ conn, s.server.conns s.sink = some conn → conn.queue.queue = [] ∧ conn.outbound = []) ∧
    s.reader.readRx.queue = [] ∧ s.reader.readBuffer = []

end Relaying

inductive RelayStep : Relaying → RelayEvent → Relaying → Prop where
  | step {s e} : RelayStep s e (s.apply e)

end Syncthing.Derp
