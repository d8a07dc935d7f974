import Syncthing.Net.Establishment
import Syncthing.Daemon.FolderAuthorization

/-! A session is held with whoever is at the other end of a connection registered under the device
id. No check of TLS ties the party to the id: the verifiers accept every signature, and
`connect_bep` does not look at the certificate at all. -/
namespace Syncthing

open ConnectionManager

/-- The route compares the id of the party with the one of the device that is dialed. -/
def Route.ComparesId : Route → Prop
  | .dial .transport | .dial (.relay _) => True
  | .dial .tcp | .listen _ => False

/-- The party, if it is not turned away, signs with the key of the certificate it presents, and does
not present another one to a device that dials without a comparison. -/
def RemoteParty.Genuine {crypto : Crypto} (party : RemoteParty crypto) (target : DeviceId)
    (route : Route) : Prop :=
  ∀ cert ∈ party.certificates.head?, party.hello = true →
    (route.ComparesId → crypto.deriveDeviceId cert = target) →
      crypto.verifies cert party.transcript party.signature = true ∧
        (route = .dial .tcp → crypto.deriveDeviceId cert = target)

/-- The session that `on_connected` starts, if the connection is the one it finds for the
device. -/
def Daemon.sessionOver {κ : Type} [DecidableEq κ] (a : Daemon) (env : SessionEnv)
    (m : ConnectionManager κ) (device : DeviceId) (conn : κ) (messages : List Message) :
    Option (Session × List (Message × List Message)) :=
  match m.getConnection device with
  | some e => if e.id = conn then some ((Session.start a device).1.run env messages) else none
  | none => none

section

variable {κ : Type} [DecidableEq κ] {crypto : Crypto} {party : RemoteParty crypto}
  {target device : DeviceId} {route : Route} {m : ConnectionManager κ} {conn : κ}

theorem Daemon.registered_of_sessionOver {a : Daemon} {env : SessionEnv} {messages : List Message}
    {r : Session × List (Message × List Message)}
    (h : a.sessionOver env m device conn messages = some r) : m.Registered device conn := by
  unfold sessionOver at h
  split at h
  next e he =>
    split at h
    next hconn =>
      rw [← hconn]
      exact registered_of_getConnection he
    · cases h
  · cases h

namespace RemoteParty

theorem Genuine.proves (h : party.Genuine target route)
    (hadmitted : party.Admitted target route device) : party.Proves device := by
  obtain ⟨hhello, cert, hcert, hdevice⟩ := hadmitted
  have hgenuine := h cert hcert hhello
  cases route with
  | dial connector =>
    cases connector with
    | tcp =>
      obtain ⟨hverifies, htarget⟩ := hgenuine fun hc => hc.elim
      exact ⟨cert, hcert, (htarget rfl).trans hdevice.symm, hverifies⟩
    | transport | relay _ =>
      obtain ⟨rfl, hcompared⟩ := hdevice
      exact ⟨cert, hcert, hcompared, (hgenuine fun _ => hcompared).1⟩
  | listen listener => exact ⟨cert, hcert, hdevice.symm, (hgenuine fun hc => hc.elim).1⟩

/-- The id a party is admitted as, if it presents a certificate and is not turned away. -/
theorem exists_admitted {cert : Bytes} (hcert : cert ∈ party.certificates.head?)
    (hhello : party.hello = true)
    (hcompares : route.ComparesId → crypto.deriveDeviceId cert = target) :
    ∃ d, party.Admitted target route d ∧ (route = .dial .tcp → d = target) := by
  cases route with
  | dial connector =>
    cases connector with
    | tcp => exact ⟨target, ⟨hhello, cert, hcert, rfl⟩, fun _ => rfl⟩
    | transport | relay _ =>
      exact ⟨target, ⟨hhello, cert, hcert, rfl, hcompares trivial⟩, fun _ => rfl⟩
  | listen listener =>
    exact ⟨crypto.deriveDeviceId cert, ⟨hhello, cert, hcert, rfl⟩, fun h => by cases h⟩

theorem genuine_of_proves (h : ∀ d, party.Admitted target route d → party.Proves d) :
    party.Genuine target route := by
  intro cert hcert hhello hcompares
  obtain ⟨d, hadmitted, hd⟩ := exists_admitted hcert hhello hcompares
  obtain ⟨cert', hcert', hdevice, hverifies⟩ := h d hadmitted
  obtain rfl := Option.mem_unique hcert hcert'
  exact ⟨hverifies, fun hroute => hdevice.trans (hd hroute)⟩

end RemoteParty

end

/-- In whatever state the manager is, a connection is registered under a device id only if the party
has proved to have the key of the device: exactly for the parties that are genuine. Then every
session as the device is with a party that has its key. -/
theorem registered_by_key_iff {κ : Type} [DecidableEq κ] (crypto : Crypto)
    (party : RemoteParty crypto) (target : DeviceId) (route : Route) (conn : κ) :
    ((∀ m : ConnectionManager κ, (∀ d, ¬ m.Registered d conn) → ∀ device,
        (m.establish party conn target route).Registered device conn → party.Proves device) ↔
      party.Genuine target route) ∧
      (party.Genuine target route → ∀ (m : ConnectionManager κ) (a : Daemon) (env : SessionEnv)
        (device : DeviceId) (messages : List Message) r, (∀ d, ¬ m.Registered d conn) →
          a.sessionOver env (m.establish party conn target route) device conn messages = some r →
            ∃ cert ∈ party.keys, crypto.deriveDeviceId cert = device) := by
  refine ⟨⟨fun h => ?_, fun h m hfresh device hregistered => ?_⟩,
    fun h m a env device messages r hfresh hsession => ?_⟩
  · apply RemoteParty.genuine_of_proves
    intro d hadmitted
    refine h (.new target) ?_ d (registered_establish_new target hadmitted)
    rintro _ ⟨nested, hnested, -⟩
    cases hnested
  · exact h.proves (admitted_of_establish (hfresh device) hregistered)
  · have hregistered := Daemon.registered_of_sessionOver hsession
    exact (h.proves (admitted_of_establish (hfresh device) hregistered)).hasKey

/-- No signature is one by the key of a certificate. -/
def nothingVerifies : Crypto where
  sha256 := id
  verifies _ _ _ := false

/-- A party that presents a certificate and has no key at all. -/
def impostor (cert : Bytes) : RemoteParty nothingVerifies where
  version := .tls13
  certificates := [cert]
  transcript := []
  signature := []
  hello := true
  keys := ∅
  unforgeable _ h := by cases h

/-- A party that has no key presents the certificate of a device, is registered as the device when
it connects, gets the index of a folder and has its own one recorded. Dialed as the device, it needs
not even present that certificate. -/
theorem registered_without_key : let idle : ConnectionManager Unit := .new ⟨[1]⟩
    let incoming := idle.establish (impostor [2]) () stranger (.listen .transport)
    let dialed := idle.establish (impostor [9]) () stranger (.dial .tcp)
    let messages : List Message := [.clusterConfig [⟨"f", "", []⟩],
      .indexUpdate ⟨"f", [peerVersion 1 9], 1, 0⟩]
    (impostor [2]).keys = ∅ ∧ (impostor [9]).keys = ∅ ∧
      incoming.Registered stranger () ∧ dialed.Registered stranger () ∧
      ∃ r, (oneFolder [stranger] [7]).sessionOver calmSession incoming stranger () messages =
          some r ∧ r.2.map (·.2) = [[.index ⟨"f", []⟩], []] ∧
        (r.1.daemon.folders.find? "f").map (·.model.folder.db.entries) =
          some [peerVersion 1 9] := by
  refine ⟨rfl, rfl, ⟨[⟨(), .incoming⟩], rfl, _, List.mem_singleton_self _, rfl⟩,
    ⟨[⟨(), .outgoing⟩], rfl, _, List.mem_singleton_self _, rfl⟩, _, rfl, rfl, rfl⟩

end Syncthing
