import Syncthing.Net.Tls

/-! The dials (`tcp_transport.rs`, `transport/bep_adapter.rs`, `relay/dial.rs`), the listeners
(`tcp_transport.rs`, `transport/bep_adapter.rs`, `relay_listener.rs`) and the way of a connection
from there to the connection manager. -/
namespace Syncthing

open Program RemoteParty

inductive Connector where
  /-- `connect_bep` -/
  | tcp
  /-- `TransportBepConnector`, for the registered transports and DERP -/
  | transport
  /-- `connect_bep_via_relay`. The invitation says which end is the server of TLS. -/
  | relay (serverSocket : Bool)
  deriving DecidableEq

inductive Listener where
  /-- `handle_incoming` -/
  | transport
  /-- `run_relay_listener` -/
  | relay (serverSocket : Bool)
  deriving DecidableEq

/-- By which way a connection comes about. -/
inductive Route where
  | dial (connector : Connector)
  | listen (listener : Listener)
  deriving DecidableEq

namespace RemoteParty

variable {crypto : Crypto} (party : RemoteParty crypto) (target : DeviceId)

def connectBep : Except NetError Unit := do
  let _ ← party.handshake syncthingCertVerifier
  party.helloExchange

def connectTransport : Except NetError Unit := do
  let _ ← party.connectTlsStream (some target)
  party.helloExchange

def expectRelayPeer (peer : DeviceId) : Except NetError Unit :=
  if peer ≠ target then .error (.relayPeerMismatch target peer) else .ok ()

def connectBepViaRelay (serverSocket : Bool) : Except NetError Unit :=
  if serverSocket then do
    let peer ← party.acceptTlsStream
    expectRelayPeer target peer
    party.helloExchange
  else do
    let peer ← party.connectTlsStream (some target)
    expectRelayPeer target peer
    party.helloExchange

def connect : Connector → Except NetError Unit
  | .tcp => party.connectBep
  | .transport => party.connectTransport target
  | .relay serverSocket => party.connectBepViaRelay target serverSocket

/-- The id under which a listener takes the party. -/
def accept : Listener → Except NetError DeviceId
  | .transport => party.acceptTlsStream
  | .relay serverSocket =>
    if serverSocket then party.acceptTlsStream else party.connectTlsStream none

end RemoteParty

namespace ConnectionManager

variable {κ : Type} [DecidableEq κ] {crypto : Crypto} (m : ConnectionManager κ)
  (party : RemoteParty crypto) (conn : κ)

/-- `connect_to_with_relay` and its task, `spawn_connect_task`. -/
def connectTo (connector : Connector) (target : DeviceId) : ConnectionManager κ :=
  match m.startDial target with
  | none => m
  | some m =>
    match beginHandshake target .outgoing m with
    | .error _ m => m.clearPending target
    | .ok _ m =>
      match party.connect target connector with
      | .error _ => (m.clearPending target).endHandshake target
      | .ok _ => (m.registerConnection target ⟨conn, .outgoing⟩).endHandshake target

def acceptFrom (listener : Listener) : ConnectionManager κ :=
  match party.accept listener with
  | .error _ => m
  | .ok device =>
    match beginHandshake device .incoming m with
    | .error _ m => m
    | .ok _ m =>
      match party.helloExchange with
      | .error _ => m.endHandshake device
      | .ok _ => (m.registerConnection device ⟨conn, .incoming⟩).endHandshake device

def establish (target : DeviceId) : Route → ConnectionManager κ
  | .dial connector => m.connectTo party conn connector target
  | .listen listener => m.acceptFrom party conn listener

end ConnectionManager

/-! ## The id a party gets -/

namespace RemoteParty

variable {crypto : Crypto} (party : RemoteParty crypto) (target : DeviceId)

/-- The party is registered as the device, unless the manager has something against it. -/
def Admitted (route : Route) (device : DeviceId) : Prop :=
  party.hello = true ∧ ∃ cert ∈ party.certificates.head?,
    match route with
    | .dial .tcp => device = target
    | .dial _ => device = target ∧ crypto.deriveDeviceId cert = target
    | .listen _ => device = crypto.deriveDeviceId cert

variable {party target} {connector : Connector} {listener : Listener}

theorem expectRelayPeer_eq_ok {peer : DeviceId} :
    expectRelayPeer target peer = .ok () ↔ peer = target := by
  by_cases h : peer = target <;> simp [expectRelayPeer, h]

theorem connectBep_eq_ok : party.connectBep = .ok () ↔
    party.hello = true ∧ party.certificates ≠ [] := by
  unfold connectBep
  rw [handshake_eq (.inr rfl), ← helloExchange_eq_ok]
  by_cases h : party.certificates = [] <;> simp [h, bind, Except.bind]

theorem connectTransport_eq_ok : party.connectTransport target = .ok () ↔
    party.hello = true ∧ ∃ cert ∈ party.certificates.head?,
      crypto.deriveDeviceId cert = target := by
  unfold connectTransport
  rw [← helloExchange_eq_ok]
  constructor
  · intro h
    obtain ⟨device, hdevice, hhello⟩ := bind_eq_ok.mp h
    obtain ⟨hcert, htarget⟩ := connectTlsStream_eq_ok.mp hdevice
    obtain rfl := htarget target rfl
    exact ⟨hhello, hcert⟩
  · rintro ⟨hhello, hcert⟩
    refine bind_eq_ok.mpr ⟨target, connectTlsStream_eq_ok.mpr ⟨hcert, ?_⟩, hhello⟩
    intro expected hexpected
    exact Option.some.inj hexpected

/-- The second comparison of the relay dial adds nothing to the one of `connect_tls_stream`. -/
theorem expected_eq_ok {handshake : Except NetError DeviceId} :
    (do
      let peer ← handshake
      expectRelayPeer target peer
      party.helloExchange) = .ok () ↔ party.helloExchange = .ok () ∧ handshake = .ok target := by
  constructor
  · intro h
    obtain ⟨peer, hpeer, h⟩ := bind_eq_ok.mp h
    obtain ⟨⟨⟩, htarget, hhello⟩ := bind_eq_ok.mp h
    obtain rfl := expectRelayPeer_eq_ok.mp htarget
    exact ⟨hhello, hpeer⟩
  · rintro ⟨hhello, hpeer⟩
    exact bind_eq_ok.mpr ⟨target, hpeer,
      bind_eq_ok.mpr ⟨(), expectRelayPeer_eq_ok.mpr rfl, hhello⟩⟩

theorem connectBepViaRelay_eq_ok {serverSocket : Bool} :
    party.connectBepViaRelay target serverSocket = .ok () ↔
      party.hello = true ∧ ∃ cert ∈ party.certificates.head?,
        crypto.deriveDeviceId cert = target := by
  unfold connectBepViaRelay
  rw [← helloExchange_eq_ok]
  cases serverSocket with
  | true => exact expected_eq_ok.trans (and_congr_right fun _ => acceptTlsStream_eq_ok)
  | false =>
    refine expected_eq_ok.trans (and_congr_right fun _ => ?_)
    rw [connectTlsStream_eq_ok]
    exact and_iff_left fun expected hexpected => Option.some.inj hexpected

theorem connect_eq_ok : party.connect target connector = .ok () ↔
    party.Admitted target (.dial connector) target := by
  unfold Admitted
  cases connector with
  | tcp =>
    rw [connect, connectBep_eq_ok]
    cases party.certificates <;> simp
  | transport => simp [connect, connectTransport_eq_ok]
  | relay serverSocket => simp [connect, connectBepViaRelay_eq_ok]

theorem accept_eq_ok {device : DeviceId} :
    party.accept listener = .ok device ↔
      ∃ cert ∈ party.certificates.head?, crypto.deriveDeviceId cert = device := by
  cases listener with
  | transport => exact acceptTlsStream_eq_ok
  | relay serverSocket =>
    cases serverSocket with
    | true => exact acceptTlsStream_eq_ok
    | false => simp [accept, connectTlsStream_eq_ok]

end RemoteParty

namespace ConnectionManager

variable {κ : Type} [DecidableEq κ] {crypto : Crypto} {m : ConnectionManager κ}
  {party : RemoteParty crypto} {conn : κ} {target device : DeviceId}

section
variable (hfresh : ¬ m.Registered device conn)
include hfresh

theorem admitted_of_connectTo
    (h : (m.connectTo party conn connector target).Registered device conn) :
    party.Admitted target (.dial connector) device := by
  unfold connectTo at h
  split at h
  · exact (hfresh h).elim
  next noted hnoted =>
    have hfresh' : ¬ (after (beginHandshake target .outgoing) noted).Registered device
        conn := by
      intro hr
      have hr' := hr.of_beginHandshake
      rw [startDial_eq_some hnoted] at hr'
      exact hfresh hr'
    unfold after at hfresh'
    split at h
    next hbegin =>
      rw [hbegin] at hfresh'
      exact (hfresh' h).elim
    next hbegin =>
      rw [hbegin] at hfresh'
      split at h
      · exact (hfresh' h).elim
      next hconnect =>
        rcases Registered.of_registerConnection h with hr | ⟨rfl, -⟩
        · exact (hfresh' hr).elim
        · exact connect_eq_ok.mp hconnect

theorem admitted_of_acceptFrom
    (h : (m.acceptFrom party conn listener).Registered device conn) :
    party.Admitted target (.listen listener) device := by
  unfold acceptFrom at h
  split at h
  · exact (hfresh h).elim
  next peer haccept =>
    have hfresh' : ¬ (after (beginHandshake peer .incoming) m).Registered device conn :=
      fun hr => hfresh hr.of_beginHandshake
    unfold after at hfresh'
    split at h
    next hbegin =>
      rw [hbegin] at hfresh'
      exact (hfresh' h).elim
    next hbegin =>
      rw [hbegin] at hfresh'
      split at h
      · exact (hfresh' h).elim
      next hhello =>
        rcases Registered.of_registerConnection h with hr | ⟨rfl, -⟩
        · exact (hfresh' hr).elim
        · obtain ⟨cert, hcert, hdevice⟩ := accept_eq_ok.mp haccept
          exact ⟨helloExchange_eq_ok.mp hhello, cert, hcert, hdevice.symm⟩

/-- Only a party that is admitted as the device is registered under it. -/
theorem admitted_of_establish {route : Route}
    (h : (m.establish party conn target route).Registered device conn) :
    party.Admitted target route device := by
  cases route with
  | dial connector => exact admitted_of_connectTo hfresh h
  | listen listener => exact admitted_of_acceptFrom hfresh h

end

/-- A manager that has no connections registers it. -/
theorem registered_establish_new {route : Route} (localDeviceId : DeviceId)
    (h : party.Admitted target route device) :
    ((new localDeviceId : ConnectionManager κ).establish party conn target route).Registered device
      conn := by
  cases route with
  | dial connector =>
    obtain rfl : device = target := by
      obtain ⟨-, cert, -, hdevice⟩ := h
      cases connector with
      | tcp => exact hdevice
      | transport | relay _ => exact hdevice.1
    change (match party.connect device connector with
      | .error _ => _
      | .ok _ => _ : ConnectionManager κ).Registered device conn
    rw [connect_eq_ok.mpr h]
    refine Registered.endHandshake (registered_registerConnection ?_)
    rfl
  | listen listener =>
    obtain ⟨hhello, cert, hcert, hdevice⟩ := h
    have haccept : party.accept listener = .ok device :=
      accept_eq_ok.mpr ⟨cert, hcert, hdevice.symm⟩
    change (match party.accept listener with
      | .error _ => _
      | .ok _ => _ : ConnectionManager κ).Registered device conn
    rw [haccept]
    change (match party.helloExchange with
      | .error _ => _
      | .ok _ => _ : ConnectionManager κ).Registered device conn
    rw [helloExchange_eq_ok.mpr hhello]
    refine Registered.endHandshake (registered_registerConnection ?_)
    rfl

end ConnectionManager
end Syncthing
