import Syncthing.Net.Messages
import Syncthing.Lib.Program

/-! What a device keeps of its connections, `syncthing-net/src/manager`: the handshakes in progress
(`handshake.rs`), the registered connections (`registry.rs`) and the attempts to dial (`dialer.rs`).
Connections are named by `κ`. -/
namespace Syncthing

open Function

inductive ConnectionType where
  | incoming
  | outgoing
  deriving DecidableEq

/-- A connection as one of its ends has it. -/
structure Connection (κ : Type) where
  id : κ
  connType : ConnectionType
  deriving DecidableEq

inductive NetError where
  | raceLost (device : DeviceId) (existing : ConnectionType)
  | tlsHandshakeFailed
  | noPeerCertificate
  | emptyPeerCertificateChain
  | deviceIdMismatch (expected got : DeviceId)
  | relayPeerMismatch (expected got : DeviceId)
  | helloFailed
  deriving DecidableEq

structure ConnectionManager (κ : Type) where
  localDeviceId : DeviceId
  connections : DeviceId → Option (List (Connection κ))
  pendingHandshakes : DeviceId → Option ConnectionType
  /-- Whether an attempt to connect is in progress. -/
  pendingConnections : DeviceId → Bool
  /-- The connections this end has closed. -/
  closed : κ → Bool

/-- What to do with a new connection, decided under the lock and done after it is released. -/
inductive RegisterAction (κ : Type) where
  | replace (old : Connection κ)
  | rejectNew
  | insertExisting
  | createNew
  deriving DecidableEq

namespace ConnectionType

def other : ConnectionType → ConnectionType
  | incoming => outgoing
  | outgoing => incoming

theorem eq_or_eq_other (t u : ConnectionType) : u = t ∨ u = t.other := by
  cases t <;> cases u <;> simp [other]

variable (t : ConnectionType)

@[simp] theorem other_ne : t.other ≠ t := by
  cases t <;> simp [other]

@[simp] theorem ne_other : t ≠ t.other := (other_ne t).symm

end ConnectionType

namespace ConnectionManager

variable {κ : Type} (m : ConnectionManager κ) (device : DeviceId)

def new (localDeviceId : DeviceId) : ConnectionManager κ where
  localDeviceId := localDeviceId
  connections := fun _ => none
  pendingHandshakes := fun _ => none
  pendingConnections := fun _ => false
  closed := fun _ => false

def isAlive (c : Connection κ) : Bool := !m.closed c.id

/-- The first live connection to the device. -/
def getConnection : Option (Connection κ) :=
  (m.connections device).bind fun nested => nested.find? m.isAlive

def isConnected : Bool := (m.getConnection device).isSome

def localSmaller : Bool := decide (m.localDeviceId.bytes < device.bytes)

/-- A new handshake while another one with the device is in progress. -/
def shouldYieldNew (existing new : ConnectionType) : Bool :=
  match existing, new with
  | .incoming, .outgoing => m.localSmaller device
  | .outgoing, .incoming => !m.localSmaller device
  | _, _ => true

/-- A new connection while another one to the device is registered. -/
def shouldReplace (old new : ConnectionType) : Bool :=
  if old = new then false
  else
    match old, new with
    | .outgoing, .incoming => m.localSmaller device
    | .incoming, .outgoing => !m.localSmaller device
    | _, _ => false

variable (connType : ConnectionType)

/-- An incoming connection or a dial enters the table of handshakes. -/
def enterHandshake : ConnectionManager κ :=
  { m with pendingHandshakes := update m.pendingHandshakes device (some connType) }

/-- A new handshake meets one in progress. -/
def contend : Except NetError (ConnectionManager κ) :=
  match m.pendingHandshakes device with
  | none => .ok m
  | some existing =>
    if m.shouldYieldNew device existing connType then .error (.raceLost device existing)
    else .ok { m with pendingHandshakes := update m.pendingHandshakes device none }

/-- The guard of a handshake is dropped. Whichever handshake is in the table goes. -/
def endHandshake : ConnectionManager κ :=
  { m with pendingHandshakes := update m.pendingHandshakes device none }

/-- The critical section before a dial, unless there is nothing to dial. -/
def startDial : Option (ConnectionManager κ) :=
  if m.isConnected device || m.pendingConnections device then none
  else some { m with pendingConnections := update m.pendingConnections device true }

/-- The attempt is over. Its entry holds the only sender that keeps its task from being
cancelled. -/
def clearPending : ConnectionManager κ :=
  { m with pendingConnections := update m.pendingConnections device false }

def registerAction (conn : Connection κ) : RegisterAction κ :=
  match m.connections device with
  | none => .createNew
  | some [] => .insertExisting
  | some (existing :: _) =>
    if m.shouldReplace device existing.connType conn.connType then .replace existing
    else .rejectNew

/-- A connection is in the pool under the device. -/
def Registered (c : κ) : Prop := ∃ nested ∈ m.connections device, ∃ e ∈ nested, e.id = c

def setConnections (nested : Option (List (Connection κ))) : ConnectionManager κ :=
  { m with connections := update m.connections device nested }

section closing

variable [DecidableEq κ]

def close (cs : List (Connection κ)) : ConnectionManager κ :=
  { m with closed := fun c => m.closed c || cs.any fun e => e.id = c }

/-- All connections to the device are taken from the pool and closed. -/
def disconnect : ConnectionManager κ :=
  (m.close ((m.connections device).getD [])).setConnections device none

/-- A new handshake replaces what is connected. -/
def replaceConnected : ConnectionManager κ :=
  if m.isConnected device then m.disconnect device else m

variable (conn : Connection κ)

/-- What has been decided on a new connection is done. -/
def act : RegisterAction κ → ConnectionManager κ
  | .replace old => ((m.close [old]).setConnections device (some [conn])).clearPending device
  | .rejectNew => m.close [conn]
  | .insertExisting =>
    (m.setConnections device (some (conn :: (m.connections device).getD []))).clearPending device
  | .createNew => (m.setConnections device (some [conn])).clearPending device

def registerConnection : ConnectionManager κ :=
  m.act device conn (m.registerAction device conn)

def beginHandshake (connType : ConnectionType) : EStateM NetError (ConnectionManager κ) Unit := do
  modify fun m => m.replaceConnected device
  let m ← get
  let m ← Program.require (m.contend device connType)
  set (m.enterHandshake device connType)

end closing

variable {m device} {connType : ConnectionType} {m' : ConnectionManager κ}
  {nested : Option (List (Connection κ))}

@[simp] theorem connections_setConnections :
    (m.setConnections device nested).connections device = nested :=
  update_self ..

theorem connections_setConnections_of_ne {d : DeviceId}
    (h : d ≠ device) : (m.setConnections device nested).connections d = m.connections d :=
  update_of_ne h ..

@[simp] theorem pendingConnections_clearPending :
    (m.clearPending device).pendingConnections device = false :=
  update_self ..

@[simp] theorem pendingHandshakes_endHandshake :
    (m.endHandshake device).pendingHandshakes device = none :=
  update_self ..

@[simp] theorem pendingHandshakes_enterHandshake :
    (m.enterHandshake device connType).pendingHandshakes device = some connType :=
  update_self ..

theorem startDial_eq_some (h : m.startDial device = some m') :
    m' = { m with pendingConnections := update m.pendingConnections device true } := by
  unfold startDial at h
  split at h
  · cases h
  · exact (Option.some.inj h).symm

theorem startDial_eq_none (h : m.startDial device = none) :
    m.isConnected device = true ∨ m.pendingConnections device = true := by
  unfold startDial at h
  split at h
  next hbusy => exact Bool.or_eq_true_iff.mp hbusy
  · cases h

theorem contend_eq_ok
    (h : m.contend device connType = .ok m') : m' = m ∨ m' = m.endHandshake device := by
  unfold contend at h
  split at h
  · exact .inl (Except.ok.inj h).symm
  · split at h
    · cases h
    · exact .inr (Except.ok.inj h).symm

theorem contend_eq_error {e : NetError} (h : m.contend device connType = .error e) : ∃ existing,
      m.pendingHandshakes device = some existing ∧
        m.shouldYieldNew device existing connType = true := by
  unfold contend at h
  split at h
  · cases h
  next existing hpending =>
    split at h
    · exact ⟨existing, hpending, by assumption⟩
    · cases h

theorem replaceConnected_of_not_connected [DecidableEq κ] (h : m.isConnected device = false) :
    m.replaceConnected device = m := by
  simp [replaceConnected, h]

/-! ## What is registered -/

section registered

variable {d : DeviceId} {c : κ} {conn : Connection κ}

theorem Registered.endHandshake (h : m.Registered d c) : (m.endHandshake device).Registered d c := h

theorem registered_of_getConnection (h : m.getConnection device = some conn) :
    m.Registered device conn.id := by
  obtain ⟨nested, hnested, hconn⟩ := Option.bind_eq_some_iff.mp h
  exact ⟨nested, hnested, conn, List.mem_of_find?_eq_some hconn, rfl⟩

theorem Registered.of_setConnections {nested : Option (List (Connection κ))}
    (h : (m.setConnections device nested).Registered d c) :
    m.Registered d c ∨ d = device ∧ ∃ e ∈ nested.getD [], e.id = c := by
  obtain ⟨cs, hcs, he⟩ := h
  by_cases hd : d = device
  · subst hd
    rw [connections_setConnections] at hcs
    rw [Option.mem_def.mp hcs]
    exact .inr ⟨rfl, he⟩
  · rw [connections_setConnections_of_ne hd] at hcs
    exact .inl ⟨cs, hcs, he⟩

variable [DecidableEq κ] {connType : ConnectionType}

theorem Registered.of_disconnect (h : (m.disconnect device).Registered d c) : m.Registered d c := by
  rcases Registered.of_setConnections h with h | ⟨-, e, he, -⟩
  · exact h
  · cases he

theorem Registered.of_replaceConnected (h : (m.replaceConnected device).Registered d c) :
    m.Registered d c := by
  unfold replaceConnected at h
  split at h
  · exact h.of_disconnect
  · exact h

theorem beginHandshake_eq : beginHandshake device connType m =
    match (m.replaceConnected device).contend device connType with
    | .ok m' => .ok () (m'.enterHandshake device connType)
    | .error e => .error e (m.replaceConnected device) := by
  change EStateM.bind (Program.require ((m.replaceConnected device).contend device connType)) _ _ = _
  unfold EStateM.bind
  cases (m.replaceConnected device).contend device connType <;> rfl

theorem connections_beginHandshake :
    (Program.after (beginHandshake device connType) m).connections =
      (m.replaceConnected device).connections := by
  unfold Program.after
  rw [beginHandshake_eq]
  cases hm : (m.replaceConnected device).contend device connType with
  | error e => rfl
  | ok m' => rcases contend_eq_ok hm with rfl | rfl <;> rfl

theorem Registered.of_beginHandshake
    (h : (Program.after (beginHandshake device connType) m).Registered d c) : m.Registered d c := by
  unfold Registered at h
  rw [connections_beginHandshake] at h
  exact Registered.of_replaceConnected h

/-- Nothing but the new connection is registered. -/
theorem Registered.of_registerConnection (h : (m.registerConnection device conn).Registered d c) :
    m.Registered d c ∨ d = device ∧ c = conn.id := by
  unfold registerConnection at h
  cases ha : m.registerAction device conn with
  | rejectNew =>
    rw [ha] at h
    exact .inl h
  | createNew | replace old =>
    rw [ha] at h
    refine (Registered.of_setConnections h).imp_right ?_
    rintro ⟨hd, e, he, rfl⟩
    exact ⟨hd, by rw [List.mem_singleton.mp he]⟩
  | insertExisting =>
    rw [ha] at h
    rcases Registered.of_setConnections h with h | ⟨rfl, e, he, rfl⟩
    · exact .inl h
    · rcases List.mem_cons.mp he with rfl | he
      · exact .inr ⟨rfl, rfl⟩
      · cases hnested : m.connections d with
        | none =>
          rw [hnested] at he
          cases he
        | some nested =>
          rw [hnested] at he
          exact .inl ⟨nested, hnested, e, he, rfl⟩

theorem registered_registerConnection (h : m.connections device = none) :
    (m.registerConnection device conn).Registered device conn.id := by
  have hcreate : m.registerAction device conn = .createNew := by simp [registerAction, h]
  rw [registerConnection, hcreate]
  exact ⟨[conn], connections_setConnections, conn, List.mem_singleton_self conn, rfl⟩

end registered

/-! ## The rule of the race -/

section rule

variable (m device)

/-- The smaller device keeps the incoming connection, the larger one the outgoing one. -/
def kept : ConnectionType := if m.localSmaller device then .incoming else .outgoing

end rule

theorem shouldYieldNew_kept {existing : ConnectionType} :
    m.shouldYieldNew device existing (m.kept device) = decide (existing = m.kept device) := by
  cases h : m.localSmaller device <;> cases existing <;> simp [kept, shouldYieldNew, h]

theorem shouldReplace_iff {old new : ConnectionType} :
    m.shouldReplace device old new = true ↔ old ≠ new ∧ new = m.kept device := by
  cases h : m.localSmaller device <;> cases old <;> cases new <;> simp [kept, shouldReplace, h]

end ConnectionManager
end Syncthing
