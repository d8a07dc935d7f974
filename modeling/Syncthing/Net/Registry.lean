import Syncthing.Net.ConnectionManager

/-! `register_connection`, `disconnect` and `disconnect_connection` of `manager/registry.rs` and
`begin_handshake` of `manager/handshake.rs`, with the index of the connection ids. Each operation on
one of the tables is atomic, and other calls take their turns between two operations. -/
namespace Syncthing

/-- The tables, and what has happened on them. -/
structure Registry (κ : Type) where
  manager : ConnectionManager κ
  connIdIndex : κ → Option DeviceId
  /-- The device each connection has been registered for, when the call began. -/
  registered : κ → Option DeviceId
  /-- What `disconnect_connection` calls have taken from the pool, each under the id it was called
  with. -/
  dropped : List (κ × κ)

/-- A call in progress, with what it does next. -/
inductive RegistryCall (κ : Type) where
  /-- `register_connection` looks for a connection to the device. -/
  | registering (device : DeviceId) (conn : Connection κ)
  | replacing (device : DeviceId) (conn old : Connection κ)
  | swapping (device : DeviceId) (conn : Connection κ)
  | inserting (device : DeviceId) (conn : Connection κ)
  | creating (device : DeviceId) (conn : Connection κ)
  | indexing (device : DeviceId) (conn : Connection κ)
  | rejecting (conn : Connection κ)
  /-- `begin_handshake` looks for a live connection to the device. -/
  | handshaking (device : DeviceId) (connType : ConnectionType)
  | taking (device : DeviceId) (connType : ConnectionType)
  | dropping (device : DeviceId) (connType : ConnectionType) (nested : List (Connection κ))
  | contending (device : DeviceId) (connType : ConnectionType)
  /-- A task that closes a connection. -/
  | closing (conn : Connection κ)
  /-- `disconnect` takes the connections of the device. -/
  | disconnecting (device : DeviceId)
  | closingAll (nested : List (Connection κ))
  | unindexing (conn : Connection κ) (nested : List (Connection κ))
  /-- `disconnect_connection` takes the id from the index. -/
  | disconnectingConnection (id : κ)
  | removing (id : κ) (device : DeviceId)
  | emptying (id : κ) (device : DeviceId)

namespace Registry

variable {κ : Type} [DecidableEq κ] (r : Registry κ)

def new (localDeviceId : DeviceId) : Registry κ :=
  ⟨.new localDeviceId, fun _ => none, fun _ => none, []⟩

variable (device : DeviceId)

/-- The connections of a device. -/
def nested : List (Connection κ) := (r.manager.connections device).getD []

def setNested (nested : Option (List (Connection κ))) : Registry κ :=
  { r with manager := r.manager.setConnections device nested }

def close (conn : Connection κ) : Registry κ := { r with manager := r.manager.close [conn] }

variable (id : κ)

def setIndex (device : Option DeviceId) : Registry κ :=
  { r with connIdIndex := Function.update r.connIdIndex id device }

def setRegistered (device : DeviceId) : Registry κ :=
  { r with registered := Function.update r.registered id (some device) }

/-- Connections leave the pool by a `disconnect_connection` call. -/
def drop (conns : List (Connection κ)) : Registry κ :=
  { r with dropped := r.dropped ++ conns.map fun e => (id, e.id) }

/-- The next operation of a call, and what is left to do. -/
def advance : RegistryCall κ → Registry κ × List (RegistryCall κ)
  | .registering device conn =>
    match r.manager.registerAction device conn with
    | .replace old => (r, [.replacing device conn old])
    | .rejectNew => (r, [.rejecting conn])
    | .insertExisting => (r, [.inserting device conn])
    | .createNew => (r, [.creating device conn])
  | .replacing device conn old => (r.close old, [.swapping device conn])
  | .swapping device conn =>
    match r.manager.connections device with
    | some _ => (r.setNested device (some [conn]), [.indexing device conn])
    | none => (r, [.creating device conn])
  | .inserting device conn =>
    match r.manager.connections device with
    | some nested => (r.setNested device (some (conn :: nested)), [.indexing device conn])
    | none => (r, [.creating device conn])
  | .creating device conn => (r.setNested device (some [conn]), [.indexing device conn])
  | .indexing device conn => (r.setIndex conn.id (some device), [])
  | .rejecting conn => (r.close conn, [])
  | .handshaking device connType =>
    if r.manager.isConnected device then (r, [.taking device connType])
    else (r, [.contending device connType])
  | .taking device connType =>
    match r.manager.connections device with
    | some nested => (r.setNested device none, [.dropping device connType nested])
    | none => (r, [.contending device connType])
  | .dropping device connType (conn :: nested) =>
    (r.setIndex conn.id none, [.closing conn, .dropping device connType nested])
  | .dropping device connType [] => (r, [.contending device connType])
  | .contending device connType =>
    match r.manager.contend device connType with
    | .ok m => ({ r with manager := m.enterHandshake device connType }, [])
    | .error _ => (r, [])
  | .closing conn => (r.close conn, [])
  | .disconnecting device =>
    match r.manager.connections device with
    | some nested => (r.setNested device none, [.closingAll nested])
    | none => (r, [])
  | .closingAll (conn :: nested) => (r.close conn, [.unindexing conn nested])
  | .closingAll [] => (r, [])
  | .unindexing conn nested => (r.setIndex conn.id none, [.closingAll nested])
  | .disconnectingConnection id =>
    match r.connIdIndex id with
    | some device => (r.setIndex id none, [.removing id device])
    | none => (r, [])
  | .removing id device =>
    match r.manager.connections device with
    | some nested =>
      let rest := nested.filter (·.id ≠ id)
      ((r.drop id (nested.filter (·.id = id))).setNested device (some rest),
        if rest.isEmpty then [.emptying id device] else [])
    | none => (r, [.emptying id device])
  | .emptying id device => ((r.drop id (r.nested device)).setNested device none, [])

end Registry

/-- A call as it is made. -/
inductive RegistryRequest (κ : Type) where
  | registerConnection (device : DeviceId) (conn : Connection κ)
  | beginHandshake (device : DeviceId) (connType : ConnectionType)
  | disconnect (device : DeviceId)
  | disconnectConnection (id : κ)

def RegistryRequest.call {κ : Type} : RegistryRequest κ → RegistryCall κ
  | registerConnection device conn => .registering device conn
  | beginHandshake device connType => .handshaking device connType
  | disconnect device => .disconnecting device
  | disconnectConnection id => .disconnectingConnection id

/-- The registry and the calls on it. -/
structure RegistryCalls (κ : Type) where
  registry : Registry κ
  calls : List (RegistryCall κ)

inductive RegistryEvent (κ : Type) where
  | request (request : RegistryRequest κ)
  | advance (call : RegistryCall κ)
  /-- A connection is closed by its peer. -/
  | ends (conn : Connection κ)

section code
variable {κ : Type} [DecidableEq κ]

def Registry.begin (r : Registry κ) : RegistryRequest κ → Registry κ
  | .registerConnection device conn => r.setRegistered conn.id device
  | _ => r

inductive RegistryStep : RegistryCalls κ → RegistryEvent κ → RegistryCalls κ → Prop where
  | request {s request} : RegistryStep s (.request request)
      ⟨s.registry.begin request, s.calls ++ [request.call]⟩
  | advance {s before call later} (hs : s.calls = before ++ call :: later) :
    RegistryStep s (.advance call)
      ⟨(s.registry.advance call).1, before ++ (s.registry.advance call).2 ++ later⟩
  | ends {s conn} : RegistryStep s (.ends conn) ⟨s.registry.close conn, s.calls⟩

end code

end Syncthing
