import Syncthing.Net.ConnectionManager

/-! The verifiers, the handshakes at both ends and the id they give the other end,
`syncthing-net/src/tls.rs`. The hash and the check of a signature are parameters. -/
namespace Syncthing

open Program

structure Crypto where
  sha256 : Bytes → Bytes
  /-- Whether a signature of a message is one by the key of a certificate. -/
  verifies (cert message signature : Bytes) : Bool

inductive TlsVersion where
  | tls12
  | tls13
  deriving DecidableEq

/-- The other end of a connection, as it behaves in the handshakes, and the keys it has. -/
structure RemoteParty (crypto : Crypto) where
  version : TlsVersion
  /-- The certificates it presents, its own one first. -/
  certificates : List Bytes
  /-- The handshake so far, which its signature is for. -/
  transcript : Bytes
  signature : Bytes
  /-- Whether it exchanges the Hello. -/
  hello : Bool
  /-- The certificates whose private key it has. -/
  keys : Set Bytes
  unforgeable : ∀ cert, crypto.verifies cert transcript signature = true → cert ∈ keys

/-- What a verifier of `rustls` is asked. -/
structure Verifier where
  verifyCert (endEntity : Bytes) (intermediates : List Bytes) : Except NetError Unit
  verifyTls12Signature (message cert dss : Bytes) : Except NetError Unit
  verifyTls13Signature (message cert dss : Bytes) : Except NetError Unit

/-- `SyncthingClientCertVerifier`: what a server asks of the certificate of a client. -/
def syncthingClientCertVerifier : Verifier where
  verifyCert _ _ := .ok ()
  verifyTls12Signature _ _ _ := .ok ()
  verifyTls13Signature _ _ _ := .ok ()

/-- `SyncthingCertVerifier`: what a client asks of the certificate of a server. -/
def syncthingCertVerifier : Verifier where
  verifyCert _ _ := .ok ()
  verifyTls12Signature _ _ _ := .ok ()
  verifyTls13Signature _ _ _ := .ok ()

variable (crypto : Crypto)

def Crypto.deriveDeviceId (cert : Bytes) : DeviceId := ⟨crypto.sha256 cert⟩

/-- The id of the peer by the certificates a handshake has left. -/
def Crypto.peerDeviceId : Option (List Bytes) → Except NetError DeviceId
  | none => .error .noPeerCertificate
  | some [] => .error .emptyPeerCertificateChain
  | some (cert :: _) => .ok (crypto.deriveDeviceId cert)

namespace RemoteParty

variable {crypto : Crypto} (party : RemoteParty crypto)

/-- The TLS handshake of `rustls`: the verifier decides on the certificate and on the signature.
Either end requires a certificate. -/
def handshake (verifier : Verifier) : Except NetError (Option (List Bytes)) :=
  match party.certificates with
  | [] => .error .tlsHandshakeFailed
  | cert :: rest => do
    verifier.verifyCert cert rest
    match party.version with
    | .tls12 => verifier.verifyTls12Signature party.transcript cert party.signature
    | .tls13 => verifier.verifyTls13Signature party.transcript cert party.signature
    return some (cert :: rest)

def acceptTlsStream : Except NetError DeviceId := do
  crypto.peerDeviceId (← party.handshake syncthingClientCertVerifier)

variable (remoteDevice : Option DeviceId) (device : DeviceId)

/-- The id a handshake is expected to end with, if any. -/
def expectDevice : Except NetError Unit :=
  match remoteDevice with
  | some expected =>
    if device ≠ expected then .error (.deviceIdMismatch expected device) else .ok ()
  | none => .ok ()

def connectTlsStream : Except NetError DeviceId := do
  let device ← crypto.peerDeviceId (← party.handshake syncthingCertVerifier)
  expectDevice remoteDevice device
  return device

/-- The Hello exchange of `handshaker.rs`, on either side. -/
def helloExchange : Except NetError Unit := if party.hello then .ok () else .error .helloFailed

/-- The party has proved, in the TLS handshake, to have the private key of the certificate whose
hash is the device id. -/
def Proves : Prop :=
  ∃ cert ∈ party.certificates.head?, crypto.deriveDeviceId cert = device ∧
    crypto.verifies cert party.transcript party.signature = true

variable {party} {remoteDevice : Option DeviceId} {device : DeviceId} {verifier : Verifier}

theorem Proves.hasKey (h : party.Proves device) :
    ∃ cert ∈ party.keys, crypto.deriveDeviceId cert = device := by
  obtain ⟨cert, -, hdevice, hverifies⟩ := h
  exact ⟨cert, party.unforgeable cert hverifies, hdevice⟩

section
variable (h : verifier = syncthingClientCertVerifier ∨ verifier = syncthingCertVerifier)
include h

/-- Neither verifier refuses anything. -/
theorem handshake_eq : party.handshake verifier =
      if party.certificates = [] then .error .tlsHandshakeFailed
      else .ok (some party.certificates) := by
  unfold handshake
  cases party.certificates with
  | nil => rfl
  | cons cert rest => rcases h with rfl | rfl <;> cases party.version <;> rfl

/-- Whatever certificate comes first gives the id. -/
theorem peerDeviceId_eq_ok : (party.handshake verifier >>= crypto.peerDeviceId) = .ok device ↔
      ∃ cert ∈ party.certificates.head?, crypto.deriveDeviceId cert = device := by
  rw [handshake_eq h]
  cases party.certificates with
  | nil => simp [bind, Except.bind]
  | cons cert rest => simp [bind, Except.bind, Crypto.peerDeviceId]

end

theorem acceptTlsStream_eq_ok : party.acceptTlsStream = .ok device ↔
    ∃ cert ∈ party.certificates.head?, crypto.deriveDeviceId cert = device :=
  peerDeviceId_eq_ok (.inl rfl)

theorem expectDevice_eq_ok :
    expectDevice remoteDevice device = .ok () ↔ ∀ expected ∈ remoteDevice, device = expected := by
  cases remoteDevice with
  | none => simp [expectDevice]
  | some expected => by_cases h : device = expected <;> simp [expectDevice, h]

theorem connectTlsStream_eq_ok : party.connectTlsStream remoteDevice = .ok device ↔
      (∃ cert ∈ party.certificates.head?, crypto.deriveDeviceId cert = device) ∧
        ∀ expected ∈ remoteDevice, device = expected := by
  rw [← peerDeviceId_eq_ok (.inr rfl), ← expectDevice_eq_ok]
  unfold connectTlsStream
  constructor
  · intro h
    obtain ⟨certs, hcerts, h⟩ := bind_eq_ok.mp h
    obtain ⟨d, hd, h⟩ := bind_eq_ok.mp h
    obtain ⟨⟨⟩, hexpect, h⟩ := bind_eq_ok.mp h
    cases h
    exact ⟨bind_eq_ok.mpr ⟨certs, hcerts, hd⟩, hexpect⟩
  · rintro ⟨h, hexpect⟩
    obtain ⟨certs, hcerts, hd⟩ := bind_eq_ok.mp h
    exact bind_eq_ok.mpr ⟨certs, hcerts, bind_eq_ok.mpr
      ⟨device, hd, bind_eq_ok.mpr ⟨(), hexpect, rfl⟩⟩⟩

theorem helloExchange_eq_ok : party.helloExchange = .ok () ↔ party.hello = true := by
  unfold helloExchange
  split <;> simp [*]

end RemoteParty
end Syncthing
