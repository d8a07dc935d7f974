import Syncthing.Lib.Keyed
import Syncthing.Net.RelayProtocol

/-! `syncthing-net/src/relay`: the server, the client and the address that a client makes out of an
invitation. A client writes each message at once and the server finds whole messages in its buffer.
Every write of the server is a step of its own. -/
namespace Syncthing.Relay

open Function

inductive IpAddr where
  | v4 (a b c d : UInt8)
  | v6 (bits : BitVec 128)
  deriving DecidableEq

namespace IpAddr

def isLoopback : IpAddr → Bool
  | v4 a _ _ _ => a == 127
  | v6 bits => bits == 1

def isMulticast : IpAddr → Bool
  | v4 a _ _ _ => 224 ≤ a && a ≤ 239
  | v6 bits => bits.toNat / 2 ^ 120 == 0xff

def isUnspecified : IpAddr → Bool
  | v4 a b c d => a == 0 && b == 0 && c == 0 && d == 0
  | v6 bits => bits == 0

def isLinkLocalV4 : IpAddr → Bool
  | v4 a b _ _ => a == 169 && b == 254
  | v6 _ => false

end IpAddr

structure SocketAddr where
  ip : IpAddr
  port : UInt16
  deriving DecidableEq

/-- The address a listener is bound to. -/
structure Listener extends SocketAddr where
  bound : port ≠ 0

/-- A connection to an address comes to the listener. -/
def Listener.reachedBy (l : Listener) (addr : SocketAddr) : Prop :=
  addr.port = l.port ∧ (l.ip.isUnspecified = true ∨ addr.ip = l.ip)

inductive ResolveError where
  | invalidAddress (message : String)
  /-- `SSRF prevention: relay attempted to redirect to unsafe address` -/
  | redirect (addr : SocketAddr)
  /-- `SSRF prevention: relay attempted to redirect to link-local address` -/
  | linkLocal (addr : SocketAddr)
  deriving DecidableEq

/-- The end of `resolve_session_addr`. -/
def checkRedirect (addr : SocketAddr) : Except ResolveError SocketAddr :=
  if addr.ip.isLoopback || addr.ip.isMulticast || addr.ip.isUnspecified then .error (.redirect addr)
  else if addr.ip.isLinkLocalV4 then .error (.linkLocal addr)
  else .ok addr

/-- The address of a session. `parseIp` reads an address from a text, as the standard library
does. -/
def resolveSessionAddr (parseIp : Bytes → Except String IpAddr) (protocolAddr : SocketAddr)
    (invitation : SessionInvitation) : Except ResolveError SocketAddr :=
  if invitation.address.isEmpty then checkRedirect ⟨protocolAddr.ip, invitation.port.toUInt16⟩
  else
    match parseIp invitation.address with
    | .error e => .error (.invalidAddress ("invalid session address: " ++ e))
    | .ok ip => checkRedirect ⟨ip, invitation.port.toUInt16⟩

def maxClients : Nat := 1000

/-- The size of the buffer that the server reads into. -/
def bufferSize : Nat := 65536

structure SessionKey where
  bytes : Bytes
  size : bytes.length = 32

structure Client where
  deviceId : DeviceId
  /-- The connection that is written to. -/
  writer : Nat
  deriving DecidableEq

structure PendingSession where
  /-- `from` -/
  source : DeviceId
  target : DeviceId
  firstArrived : Option Nat
  deriving DecidableEq

inductive SessionRole where
  | phase1
  | phase2 (first : Nat)
  deriving DecidableEq

structure Server where
  session : Listener
  clients : KeyedList Client.deviceId
  pendingSessions : Bytes → Option PendingSession

namespace Server

variable (s : Server)

def new (session : Listener) : Server := ⟨session, .empty, fun _ => none⟩

def isFull : Bool := s.clients.entries.length ≥ maxClients

def insertClient (client : Client) : Server := { s with clients := s.clients.upsert client }

def removeClient (deviceId : DeviceId) : Server := { s with clients := s.clients.erase deviceId }

def setSession (key : Bytes) (session : Option PendingSession) : Server :=
  { s with pendingSessions := update s.pendingSessions key session }

variable (c : Nat)

/-- What becomes of the table, and what is to be written to which connection. -/
def handleConnectRequest (fromDevice : DeviceId) (req : ConnectRequest)
    (key : SessionKey) : Server × List (Nat × Message) :=
  match DeviceId.fromBytes req.id with
  | .error e => (s, [(c, .response ⟨1, "invalid device ID: " ++ e⟩)])
  | .ok targetId =>
    match s.clients.find? targetId with
    | none => (s, [(c, .response .notFound)])
    | some targetClient =>
      (s.setSession key.bytes (some ⟨fromDevice, targetId, none⟩),
        [(c, .sessionInvitation ⟨fromDevice.bytes, key.bytes, [], 0, false⟩),
          (targetClient.writer, .sessionInvitation ⟨fromDevice.bytes, key.bytes, [], 0, true⟩)])

/-- One message of a client in protocol mode. -/
def handleMessage (deviceId : DeviceId) (key : SessionKey) :
    MessageType × Bytes → Server × List (Nat × Message)
  | (.ping, _) => (s, [(c, .pong)])
  | (.joinRelayRequest, _) => (s, [(c, .response .success)])
  | (.connectRequest, body) =>
    match ConnectRequest.decode body with
    | some req => s.handleConnectRequest c deviceId req key
    | none => (s, [])
  | (.pong, _) | (.response, _) | (.sessionInvitation, _) | (.joinSessionRequest, _)
  | (.relayFull, _) => (s, [])

/-- The part of a connection that presents a key; nothing if the key is not known. -/
def joinSession (key : Bytes) : Server × Option SessionRole :=
  match s.pendingSessions key with
  | none => (s, none)
  | some session =>
    match session.firstArrived with
    | some first =>
      (s.setSession key (some { session with firstArrived := none }), some (.phase2 first))
    | none => (s.setSession key (some { session with firstArrived := some c }), some .phase1)

end Server

/-- The key in the first bytes that come on a session connection. -/
def joinRequest (data : Bytes) : Except String Bytes :=
  match Header.decode data with
  | none => .error "invalid session header"
  | some (header, data) =>
    if header.magic ≠ magic ∨ header.messageType ≠ .joinSessionRequest then
      .error "expected JoinSessionRequest in session mode"
    else
      match JoinSessionRequest.decode (data.take header.messageLength.toInt.toNat) with
      | none => .error "invalid JoinSessionRequest"
      | some req => .ok req.key

/-- What the methods of a client are called for. -/
inductive Call where
  | joinRelay
  | requestSession (target : DeviceId)
  | waitInvitation
  | ping
  deriving DecidableEq

inductive CallError where
  | timeout (message : String)
  /-- The server has reported an error. -/
  | refused (message : String)
  | unexpected (during : String) (other : Message)
  | relay (e : RelayError)
  deriving DecidableEq

inductive Outcome where
  | joined
  | invited (invitation : SessionInvitation)
  | alive
  | failed (e : CallError)
  deriving DecidableEq

namespace Call

/-- What a call writes before it reads. -/
def request : Call → List Message
  | joinRelay => [.joinRelayRequest]
  | requestSession target => [.connectRequest ⟨target.bytes⟩]
  | waitInvitation => []
  | ping => [.ping]

/-- How a call ends with a message; it goes on after a ping that it answers. -/
def react : Call → Message → Option Outcome
  | joinRelay, .response resp =>
    if resp.code = 0 then some .joined
    else if resp.code = 2 then some .joined
    else some (.failed (.refused ("relay join rejected: " ++ resp.message ++ " (code " ++
      toString resp.code ++ ")")))
  | joinRelay, .relayFull => some (.failed (.refused "relay full"))
  | joinRelay, other => some (.failed (.unexpected "during relay join" other))
  | requestSession _, .sessionInvitation inv => some (.invited inv)
  | requestSession _, .response resp =>
    if resp.code = 1 then some (.failed (.refused "peer not found on relay"))
    else some (.failed (.refused ("relay connect rejected: " ++ resp.message ++ " (code " ++
      toString resp.code ++ ")")))
  | requestSession _, .relayFull => some (.failed (.refused "relay full"))
  | requestSession _, other => some (.failed (.unexpected "during relay connect" other))
  | waitInvitation, .sessionInvitation inv => some (.invited inv)
  | waitInvitation, .ping => none
  | waitInvitation, other => some (.failed (.unexpected "while waiting invitation" other))
  | ping, .pong => some .alive
  | ping, other => some (.failed (.unexpected "during ping" other))

/-- The error of a call that has waited for too long. -/
def timedOut : Call → Option CallError
  | joinRelay => some (.timeout "relay join timeout")
  | requestSession _ => some (.timeout "relay session request timeout")
  | waitInvitation => none
  | ping => some (.timeout "relay ping timeout")

end Call

inductive Phase where
  | accepted
  /-- The server has found that there is room. -/
  | admitted
  | serving
  | ended
  deriving DecidableEq

/-- A connection in protocol mode, with its handler at the server and the client that holds it. -/
structure Conn where
  deviceId : DeviceId
  phase : Phase
  pinging : Bool
  /-- What the client has written and the server has not read. -/
  toServer : List Message
  /-- What is left of the buffer of the handler. -/
  buffered : List (MessageType × Bytes)
  /-- What the handler has still to write for the message before. -/
  writes : List (Nat × Message)
  /-- What has been written to the client and it has not read. -/
  toClient : Bytes
  /-- The address the client has connected to. -/
  relayAddr : SocketAddr
  /-- The client has not been dropped. -/
  isOpen : Bool
  call : Option Call
  /-- The calls that have returned. -/
  results : List (Call × Outcome)

inductive SessionHandler where
  | waiting (key : Bytes)
  | pairing (key : Bytes) (first : Nat)
  | done
  deriving DecidableEq

/-- A server with its clients. -/
structure System where
  server : Server
  conns : Nat → Option Conn
  sessions : Nat → Option SessionHandler
  /-- The session connections that are forwarded to each other. -/
  forwards : List (Nat × Nat)

inductive RelayEvent where
  | connect (c : Nat) (deviceId : DeviceId) (relayAddr : SocketAddr)
  | checkCapacity (c : Nat)
  | register (c : Nat)
  | tick (c : Nat)
  | pingFails (c : Nat)
  | read (c n : Nat)
  | handle (c : Nat) (key : SessionKey)
  | write (c : Nat)
  | disconnect (c : Nat)
  | call (c : Nat) (call : Call)
  | receive (c : Nat)
  | endOfStream (c : Nat)
  | timeOut (c : Nat)
  | drop (c : Nat)
  | join (a : Nat) (data : Bytes)
  | waitEnds (a : Nat)
  | pair (a : Nat)
  | pairFails (a : Nat)

namespace Conn

variable (conn : Conn) (call : Call)

def finish (outcome : Outcome) : Conn :=
  { conn with call := none, results := conn.results ++ [(call, outcome)] }

/-- The client reads a message, if there is one. -/
def receive : Conn :=
  match conn.call with
  | none => conn
  | some call =>
    match readMessage conn.toClient with
    | none => conn
    | some (.error e, rest) => { conn with toClient := rest }.finish call (.failed (.relay e))
    | some (.ok m, rest) =>
      match call.react m with
      | some outcome => { conn with toClient := rest }.finish call outcome
      | none => { conn with toClient := rest, toServer := conn.toServer ++ [.pong] }

/-- The handler reads the next `n` messages into its buffer, if they fit. -/
def read (n : Nat) : Conn :=
  let data := (conn.toServer.take n).flatMap Message.encode
  if conn.phase = .serving ∧ conn.buffered = [] ∧ conn.writes = [] ∧ data.length ≤ bufferSize then
    { conn with
      toServer := conn.toServer.drop n
      buffered := cutMessages data.length data }
  else conn

def startCall : Conn :=
  if conn.isOpen ∧ conn.call = none then
    { conn with call := some call, toServer := conn.toServer ++ call.request }
  else conn

def timeOut : Conn :=
  match conn.call with
  | none => conn
  | some call =>
    match call.timedOut with
    | none => conn
    | some e => conn.finish call (.failed e)

/-- The client comes to the end of its stream. -/
def endOfStream : Conn :=
  match conn.call with
  | none => conn
  | some call =>
    if conn.phase = .ended ∧ readMessage conn.toClient = none then
      conn.finish call (.failed (.relay (.protocol "read header: early eof")))
    else conn

def drop : Conn := { conn with isOpen := false, call := none }

end Conn

namespace System

variable (s : System)

def new (session : Listener) : System := ⟨.new session, fun _ => none, fun _ => none, []⟩

variable (c : Nat)

def setConn (conn : Conn) : System := { s with conns := update s.conns c (some conn) }

@[simp] theorem conns_setConn_self {c : Nat} {conn : Conn} :
    (s.setConn c conn).conns c = some conn :=
  update_self ..

theorem conns_setConn_of_ne {c k : Nat} {conn : Conn} (h : k ≠ c) :
    (s.setConn c conn).conns k = s.conns k :=
  update_of_ne h ..

def onConn (f : Conn → Conn) : System :=
  match s.conns c with
  | none => s
  | some conn => s.setConn c (f conn)

/-- Writes a message to a connection. It is lost if the client has gone. -/
def send (m : Message) : System := s.onConn c fun conn =>
    if conn.isOpen then { conn with toClient := conn.toClient ++ m.encode } else conn

def connect (deviceId : DeviceId) (relayAddr : SocketAddr) : System :=
  match s.conns c with
  | some _ => s
  | none => s.setConn c ⟨deviceId, .accepted, false, [], [], [], [], relayAddr, true, none, []⟩

/-- The capacity is checked. -/
def checkCapacity : System :=
  match s.conns c with
  | none => s
  | some conn =>
    if conn.phase ≠ .accepted then s
    else if s.server.isFull then (s.setConn c { conn with phase := .ended }).send c .relayFull
    else s.setConn c { conn with phase := .admitted }

/-- The client is put into the table, in place of an earlier connection of the device. -/
def register : System :=
  match s.conns c with
  | none => s
  | some conn =>
    if conn.phase = .admitted then
      { s.setConn c { conn with phase := .serving, pinging := true } with
        server := s.server.insertClient ⟨conn.deviceId, c⟩ }
    else s

/-- The ping task of a connection, at each of its intervals and at once when it starts. -/
def tick : System :=
  match s.conns c with
  | none => s
  | some conn => if conn.pinging then s.send c .ping else s

def pingFails : System :=
  match s.conns c with
  | none => s
  | some conn =>
    if conn.pinging then { s.setConn c { conn with pinging := false } with
        server := s.server.removeClient conn.deviceId }
    else s

/-- The handler comes to the next message of its buffer. -/
def handle (key : SessionKey) : System :=
  match s.conns c with
  | none => s
  | some conn =>
    match conn.buffered with
    | [] => s
    | message :: buffered =>
      if conn.phase = .serving ∧ conn.writes = [] then
        let (server, writes) := s.server.handleMessage c conn.deviceId key message
        { s.setConn c { conn with buffered, writes } with server }
      else s

/-- The handler writes the next message it has to write. -/
def write : System :=
  match s.conns c with
  | none => s
  | some conn =>
    match conn.writes with
    | [] => s
    | (d, m) :: writes => (s.setConn c { conn with writes }).send d m

/-- The handler finds the connection closed. Its device leaves the table. -/
def disconnect : System :=
  match s.conns c with
  | none => s
  | some conn =>
    if conn.phase = .serving ∧ conn.buffered = [] ∧ conn.writes = [] then
      { s.setConn c { conn with phase := .ended, pinging := false } with
        server := s.server.removeClient conn.deviceId }
    else s

variable (a : Nat)

def setHandler (handler : SessionHandler) : System :=
  { s with sessions := update s.sessions a (some handler) }

/-- The first bytes of a session connection. -/
def join (data : Bytes) : System :=
  match s.sessions a, joinRequest data with
  | some _, _ => s
  | none, .error _ => s.setHandler a .done
  | none, .ok key =>
    match s.server.joinSession a key with
    | (_, none) => s.setHandler a .done
    | (server, some .phase1) => { s.setHandler a (.waiting key) with server }
    | (server, some (.phase2 first)) => { s.setHandler a (.pairing key first) with server }

/-- The first peer has waited for too long, or the second one has come: its sender is dropped and
not used. -/
def waitEnds : System :=
  match s.sessions a with
  | some (.waiting key) => { s.setHandler a .done with server := s.server.setSession key none }
  | _ => s

/-- Both peers have been answered. -/
def pair : System :=
  match s.sessions a with
  | some (.pairing key first) =>
    { s.setHandler a .done with
      server := s.server.setSession key none
      forwards := s.forwards ++ [(first, a)] }
  | _ => s

def pairFails : System :=
  match s.sessions a with
  | some (.pairing _ _) => s.setHandler a .done
  | _ => s

/-- One step of the server or of a client. What is not possible in a state leaves it as it is. -/
def apply : RelayEvent → System
  | .connect c deviceId relayAddr => s.connect c deviceId relayAddr
  | .checkCapacity c => s.checkCapacity c
  | .register c => s.register c
  | .tick c => s.tick c
  | .pingFails c => s.pingFails c
  | .read c n => s.onConn c (·.read n)
  | .handle c key => s.handle c key
  | .write c => s.write c
  | .disconnect c => s.disconnect c
  | .call c call => s.onConn c (·.startCall call)
  | .receive c => s.onConn c (·.receive)
  | .endOfStream c => s.onConn c (·.endOfStream)
  | .timeOut c => s.onConn c (·.timeOut)
  | .drop c => s.onConn c (·.drop)
  | .join a data => s.join a data
  | .waitEnds a => s.waitEnds a
  | .pair a => s.pair a
  | .pairFails a => s.pairFails a

end System

inductive RelayStep : System → RelayEvent → System → Prop where
  | step {s e} : RelayStep s e (s.apply e)

end Syncthing.Relay
