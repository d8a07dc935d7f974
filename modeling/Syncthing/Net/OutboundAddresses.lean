import Syncthing.Net.RelaySessions

/-! `validate_outbound_addr` of `tcp_transport.rs` filters what discovery and the configuration
offer to `connect_to_with_relay`, and `resolve_session_addr` checks what the invitation of a relay
offers. The address of a relay URL is dialled as it is. -/
namespace Syncthing.Relay

namespace IpAddr

def isLinkLocal : IpAddr → Bool
  | v4 a b c d => (v4 a b c d).isLinkLocalV4
  | v6 bits => (bits.toNat / 2 ^ 112) &&& 0xffc0 == 0xfe80

def isDangerous (ip : IpAddr) : Bool := ip.isMulticast || ip.isUnspecified || ip.isLinkLocal

/-- An IPv4-mapped address designates the IPv4 address in it. -/
def designated : IpAddr → IpAddr
  | v4 a b c d => v4 a b c d
  | v6 bits =>
    let byte (i : Nat) : UInt8 := .ofNat (bits.toNat / 256 ^ i)
    if bits.toNat / 2 ^ 32 = 0xffff then v4 (byte 3) (byte 2) (byte 1) (byte 0) else v6 bits

/-- A dangerous address in the IPv4-mapped form. -/
def Disguised (ip : IpAddr) : Prop := ip.designated ≠ ip ∧ ip.designated.isDangerous = true

end IpAddr

/-- `SSRF prevention: refusing to dial` an address of one of these kinds. -/
inductive OutboundError where
  | multicast (addr : SocketAddr)
  | unspecified (addr : SocketAddr)
  | linkLocal (addr : SocketAddr)

def validateOutboundAddr (addr : SocketAddr) : Except OutboundError Unit :=
  if addr.ip.isMulticast then .error (.multicast addr)
  else if addr.ip.isUnspecified then .error (.unspecified addr)
  else if addr.ip.isLinkLocal then .error (.linkLocal addr)
  else .ok ()

inductive Offer where
  | address (addr : SocketAddr)
  | relayUrl (addr : SocketAddr)
  | invitation (relay : SocketAddr) (inv : SessionInvitation)

variable {o : Offer} {addr : SocketAddr} {parseIp : Bytes → Except String IpAddr}

namespace Offer

/-- The offer leads to an attempt to connect. -/
def Dials (parseIp : Bytes → Except String IpAddr) (addr : SocketAddr) : Offer → Prop
  | address a => validateOutboundAddr a = .ok () ∧ addr = a
  | relayUrl a => addr = a
  | invitation relay inv => resolveSessionAddr parseIp relay inv = .ok addr

/-- The announced port. -/
def port : Offer → Nat
  | address a | relayUrl a => a.port.toNat
  | invitation _ inv => inv.port.toNat

/-- The checks miss nothing of an offer of this address. -/
def Plain (ip : IpAddr) : Offer → Prop
  | address _ => ¬ ip.Disguised
  | relayUrl _ => ip.designated.isDangerous = false
  | invitation _ inv =>
    ¬ ip.Disguised ∧ ip.designated.isLinkLocal = false ∧ inv.port.toNat < 2 ^ 16

end Offer

theorem checked_of_resolveSessionAddr {relay : SocketAddr} {inv : SessionInvitation}
    (h : resolveSessionAddr parseIp relay inv = .ok addr) :
    addr.ip.isMulticast = false ∧ addr.ip.isUnspecified = false := by
  simp only [resolveSessionAddr, checkRedirect] at h
  grind

/-- An attempt to connect goes to a harmless address and to the port announced exactly if the checks
miss nothing of the offer. -/
theorem dials_harmless_iff (h : o.Dials parseIp addr) :
    addr.ip.designated.isDangerous = false ∧ addr.port.toNat = o.port ↔ o.Plain addr.ip := by
  unfold Offer.Plain Offer.port IpAddr.Disguised IpAddr.isDangerous
  cases o with
  | address a =>
    obtain ⟨hok, rfl⟩ := h
    unfold validateOutboundAddr at hok
    grind
  | relayUrl a =>
    cases h
    simp
  | invitation relay inv =>
    obtain ⟨hmulticast, hunspecified⟩ := checked_of_resolveSessionAddr h
    have hport : addr.port.toNat = inv.port.toNat ↔ inv.port.toNat < 2 ^ 16 := by
      rw [port_resolveSessionAddr h, UInt32.toNat_toUInt16]
      omega
    grind

theorem dials_harmless_private : (IpAddr.v4 10 0 0 1).designated.isDangerous = false ∧
    (22000 : UInt16).toNat = (Offer.address ⟨.v4 10 0 0 1, 22000⟩).port :=
  (@dials_harmless_iff (.address _) ⟨.v4 10 0 0 1, 22000⟩ (fun _ => .ok (.v6 1)) ⟨rfl, rfl⟩).mpr
    fun h => h.1 rfl

/-- `::ffff:169.254.1.1` passes the filter, and port 65558 becomes port 22. -/
theorem dials_harmful : ∃ (parseIp : Bytes → Except String IpAddr) (a : SocketAddr),
    (Offer.address a).Dials parseIp a ∧ a.ip.designated = .v4 169 254 1 1 ∧
    (Offer.invitation ⟨.v4 10 0 0 1, 22067⟩ ⟨[], [], [], 65558, false⟩).Dials parseIp
      ⟨.v4 10 0 0 1, 22⟩ :=
  ⟨fun _ => .error "", ⟨.v6 0xffffa9fe0101, 22000⟩, ⟨rfl, rfl⟩, rfl, rfl⟩

end Syncthing.Relay
