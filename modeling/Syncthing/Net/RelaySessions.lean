import Syncthing.Lib.Transition
import Syncthing.Net.Relay

/-! When a request for a session is served, and when a client fails on a message of the server. -/
namespace Syncthing.Relay

open Transition List Relay.Message Server Relay.System

/-- The server reports an error. -/
def Message.isError : Message → Bool
  | .response resp => resp.code != 0
  | .relayFull => true
  | _ => false

/-- The messages that a call is there for. -/
def Call.answeredBy : Call → Message → Bool
  | .joinRelay, .response resp => resp.code == 0
  | .requestSession _, .sessionInvitation _ => true
  | .waitInvitation, .sessionInvitation _ => true
  | .waitInvitation, .ping => true
  | .ping, .pong => true
  | _, _ => false

/-- Two connections that present the key one after the other are joined. -/
def Server.Joins (s : Server) (key : Bytes) : Prop :=
  ∀ a b, (s.joinSession a key).2 = some .phase1 ∧
    ((s.joinSession a key).1.joinSession b key).2 = some (.phase2 a)

namespace System

variable (parseIp : Bytes → Except String IpAddr) (s : System) (c : Nat)

/-- The invitations that the calls of a client have returned. -/
def invitations : List SessionInvitation :=
  match s.conns c with
  | none => []
  | some conn => conn.results.filterMap fun
    | (_, .invited inv) => some inv
    | _ => none

/-- The client gets to the session listener with the invitation. -/
def Reaches (inv : SessionInvitation) : Prop := ∃ conn addr, s.conns c = some conn ∧
    resolveSessionAddr parseIp conn.relayAddr inv = .ok addr ∧ s.server.session.reachedBy addr

/-- The device with which the message that a handler comes to next requests a session. -/
def requested : Option DeviceId :=
  match s.conns c with
  | none => none
  | some conn =>
    if conn.phase = .serving ∧ conn.writes = [] then
      match conn.buffered with
      | (.connectRequest, body) :: _ =>
        match ConnectRequest.decode body with
        | some req => (DeviceId.fromBytes req.id).toOption
        | none => none
      | _ => none
    else none

/-- The handler is about to tell its client of an error. -/
def Refuses : Prop := ∃ conn m, s.conns c = some conn ∧ (c, m) ∈ conn.writes ∧ m.isError = true

/-- Two clients hold invitations with which they get to one session. -/
def Invited (answered : System) (c d : Nat) : Prop :=
  ∃ inv ∈ s.invitations c, ∃ inv' ∈ s.invitations d,
    s.Reaches parseIp c inv ∧ s.Reaches parseIp d inv' ∧ inv.key = inv'.key ∧
      answered.server.Joins inv.key

/-- What has come of a request that was handled in the state `requesting` and then was `answered`:
the server answered with an error, or both clients have their invitations. -/
def Served (requesting answered : System) (c : Nat) (target : DeviceId) : Prop :=
  answered.Refuses c ∨ ∃ client, requesting.server.clients.find? target = some client ∧
    s.Invited parseIp answered c client.writer

/-- The call of a client fails on what it reads next, and that is no error of the server. -/
def Aborts : Prop := ∃ conn call e, s.conns c = some conn ∧ conn.call = some call ∧
    conn.receive.results = conn.results ++ [(call, .failed e)] ∧
      ∀ m rest, readMessage conn.toClient = some (.ok m, rest) → m.isError = false

end System

variable {parseIp : Bytes → Except String IpAddr} {s t : System} {c d n : Nat} {conn : Conn}
  {m : Message} {call : Call} {inv : SessionInvitation} {id : DeviceId} {key : SessionKey}
  {addr : SocketAddr}

/-- An invitation without an address and a port, as the server makes them. -/
def SessionInvitation.Blank (inv : SessionInvitation) : Prop := inv.address = [] ∧ inv.port = 0

theorem eq_of_checkRedirect {checked : SocketAddr} (h : checkRedirect addr = .ok checked) :
    checked = addr := by
  unfold checkRedirect at h
  split at h
  · cases h
  · split at h
    · cases h
    · cases h
      rfl

theorem port_resolveSessionAddr {protocolAddr : SocketAddr}
    (h : resolveSessionAddr parseIp protocolAddr inv = .ok addr) :
    addr.port = inv.port.toUInt16 := by
  unfold resolveSessionAddr at h
  split at h
  · rw [eq_of_checkRedirect h]
  · split at h
    · cases h
    · rw [eq_of_checkRedirect h]

/-- No client gets to the session listener with such an invitation. -/
theorem not_reaches_of_blank (h : inv.Blank) : ¬ s.Reaches parseIp c inv := by
  rintro ⟨conn, addr, -, haddr, hport, -⟩
  refine s.server.session.bound ?_
  rw [← hport, port_resolveSessionAddr haddr, h.2]
  rfl

/-- What the server writes: messages that can be read, and invitations without an address. -/
structure FromServer (m : Message) : Prop where
  fits : m.Fits
  blank : ∀ inv, m = .sessionInvitation inv → inv.Blank

structure Conn.Sound (conn : Conn) : Prop where
  sent : ∀ m ∈ conn.toServer, m.Fits
  writes : ∀ w ∈ conn.writes, FromServer w.2
  stream : ∃ ms : List Message, conn.toClient = ms.flatMap encode ∧ ∀ m ∈ ms, FromServer m
  invited : ∀ r ∈ conn.results, ∀ inv, r.2 = .invited inv → inv.Blank

def System.Sound (s : System) : Prop := ∀ c conn, s.conns c = some conn → conn.Sound

theorem fromServer_of_ne (hfits : m.payloadLen ≤ maxBodyLen)
    (h : ∀ inv, m ≠ .sessionInvitation inv) : FromServer m :=
  ⟨hfits, fun inv hinv => absurd hinv (h inv)⟩

theorem fromServer_ping : FromServer .ping := fromServer_of_ne (by decide) (by simp)

theorem fromServer_relayFull : FromServer .relayFull := fromServer_of_ne (by decide) (by simp)

theorem fromServer_invitation {b : Bool} :
    FromServer (.sessionInvitation ⟨id.bytes, key.bytes, [], 0, b⟩) := by
  constructor
  · simp only [Message.Fits, payloadLen, id.size, key.size]
    decide
  · rintro inv ⟨⟩
    exact ⟨rfl, rfl⟩

/-- Whatever a client sends, what the server writes to it is sound. -/
theorem fromServer_handleMessage {server : Server} {message : MessageType × Bytes} :
    ∀ w ∈ (server.handleMessage c id key message).2, FromServer w.2 := by
  obtain ⟨type, body⟩ := message
  cases type with
  | ping | joinRelayRequest =>
    simp only [handleMessage, forall_mem_singleton]
    exact fromServer_of_ne (by decide) (by simp)
  | connectRequest =>
    simp only [handleMessage]
    split
    next req _ =>
      unfold handleConnectRequest DeviceId.fromBytes
      split
      next e herror =>
        split at herror
        · cases herror
        · cases herror
          simp only [forall_mem_singleton]
          exact fromServer_of_ne (by decide) (by simp)
      · split
        · simp only [forall_mem_singleton]
          exact fromServer_of_ne (by decide) (by simp)
        · simp only [forall_mem_cons]
          exact ⟨fromServer_invitation, fromServer_invitation, by simp⟩
    · simp
  | pong | response | sessionInvitation | joinSessionRequest | relayFull => simp [handleMessage]

theorem fits_request : ∀ m ∈ call.request, m.Fits := by
  cases call with
  | requestSession target =>
    simp only [Call.request, forall_mem_singleton, Message.Fits, payloadLen, target.size]
    decide
  | joinRelay | ping =>
    simp only [Call.request, forall_mem_singleton, Message.Fits, payloadLen]
    decide
  | waitInvitation => simp [Call.request]

/-- A call returns no invitation but the one it has read. -/
theorem eq_of_react_invited (h : call.react m = some (.invited inv)) :
    m = .sessionInvitation inv := by
  cases call <;> cases m <;> simp only [Call.react] at h <;> (try split at h) <;>
    (try split at h) <;> simp_all

/-- The next message of a sound stream, if there is one. -/
theorem readMessage_stream {stream : Bytes}
    (h : ∃ ms : List Message, stream = ms.flatMap encode ∧ ∀ m ∈ ms, FromServer m) :
    readMessage stream = none ∨ ∃ m rest, readMessage stream = some (.ok m, rest) ∧ FromServer m ∧
      ∃ ms : List Message, rest = ms.flatMap encode ∧ ∀ m ∈ ms, FromServer m := by
  obtain ⟨ms, rfl, hms⟩ := h
  cases ms with
  | nil => exact .inl rfl
  | cons m ms =>
    have hm := hms m mem_cons_self
    refine .inr ⟨m, ms.flatMap encode, ?_, hm, ms, rfl, fun m hm => hms m (mem_cons_of_mem _ hm)⟩
    rw [flatMap_cons, readMessage_encode hm.fits]

section steps

section
variable (h : conn.Sound)
include h

theorem Conn.Sound.finish {outcome : Outcome}
    (hinv : ∀ inv, outcome = .invited inv → inv.Blank) : (conn.finish call outcome).Sound := by
  refine ⟨h.sent, h.writes, h.stream, ?_⟩
  simp only [Conn.finish, List.forall_mem_append, List.forall_mem_singleton]
  exact ⟨h.invited, hinv⟩

theorem Conn.Sound.failed {e : CallError} : (conn.finish call (.failed e)).Sound :=
  h.finish (by simp)

theorem Conn.Sound.read : (conn.read n).Sound := by
  unfold Conn.read
  dsimp only
  split
  · exact ⟨fun m hm => h.sent m (mem_of_mem_drop hm), h.writes, h.stream, h.invited⟩
  · exact h

theorem Conn.Sound.receive : conn.receive.Sound := by
  unfold Conn.receive
  split
  · exact h
  next call _ =>
    rcases readMessage_stream h.stream with hnone | ⟨m, rest, hread, hm, hrest⟩
    · simp only [hnone]
      exact h
    · simp only [hread]
      have hsound : Conn.Sound { conn with toClient := rest } :=
        ⟨h.sent, h.writes, hrest, h.invited⟩
      split
      next outcome hreact =>
        refine hsound.finish ?_
        rintro inv rfl
        exact hm.blank inv (eq_of_react_invited hreact)
      · refine ⟨?_, h.writes, hrest, h.invited⟩
        simp only [forall_mem_append, forall_mem_singleton]
        exact ⟨h.sent, by unfold Message.Fits; decide⟩

theorem Conn.Sound.startCall : (conn.startCall call).Sound := by
  unfold Conn.startCall
  split
  · refine ⟨?_, h.writes, h.stream, h.invited⟩
    simp only [forall_mem_append]
    exact ⟨h.sent, fits_request⟩
  · exact h

theorem Conn.Sound.timeOut : conn.timeOut.Sound := by
  unfold Conn.timeOut
  split
  · exact h
  · split
    · exact h
    · exact h.failed

theorem Conn.Sound.endOfStream : conn.endOfStream.Sound := by
  unfold Conn.endOfStream
  split
  · exact h
  · split
    · exact h.failed
    · exact h

/-- The server's part of a connection may change. -/
theorem Conn.Sound.turn {phase : Phase} {pinging : Bool} :
    Conn.Sound { conn with phase, pinging } :=
  ⟨h.sent, h.writes, h.stream, h.invited⟩

theorem Conn.Sound.drop : conn.drop.Sound := ⟨h.sent, h.writes, h.stream, h.invited⟩

end

namespace System.Sound

section
variable (h : s.Sound)
include h

theorem setConn (hconn : conn.Sound) : (s.setConn c conn).Sound := by
  intro k other hk
  by_cases hkc : k = c
  · subst hkc
    rw [conns_setConn_self] at hk
    cases hk
    exact hconn
  · rw [conns_setConn_of_ne s hkc] at hk
    exact h k other hk

theorem onConn {f : Conn → Conn} (hf : ∀ conn : Conn, conn.Sound → (f conn).Sound) :
    (s.onConn c f).Sound := by
  unfold System.onConn
  split
  · exact h
  next conn hconn => exact h.setConn (hf conn (h c conn hconn))

theorem send (hm : FromServer m) : (s.send c m).Sound := by
  refine h.onConn fun conn hconn => ?_
  split
  · obtain ⟨ms, hstream, hms⟩ := hconn.stream
    refine ⟨hconn.sent, hconn.writes, ⟨ms ++ [m], ?_, ?_⟩, hconn.invited⟩
    · rw [flatMap_append, hstream, flatMap_singleton]
    · simp only [forall_mem_append, forall_mem_singleton]
      exact ⟨hms, hm⟩
  · exact hconn

theorem connect {id : DeviceId} : (s.connect c id addr).Sound := by
  unfold System.connect
  split
  · exact h
  · exact h.setConn ⟨by simp, by simp, ⟨[], rfl, by simp⟩, by simp⟩

theorem checkCapacity : (s.checkCapacity c).Sound := by
  unfold System.checkCapacity
  split
  · exact h
  next conn hconn =>
    have hsound := h c conn hconn
    split
    · exact h
    · split
      · exact (h.setConn hsound.turn).send fromServer_relayFull
      · exact h.setConn hsound.turn

theorem register : (s.register c).Sound := by
  unfold System.register
  split
  · exact h
  next conn hconn =>
    have hsound := h c conn hconn
    split
    · exact h.setConn hsound.turn
    · exact h

theorem tick : (s.tick c).Sound := by
  unfold System.tick
  split
  · exact h
  · split
    · exact h.send fromServer_ping
    · exact h

theorem pingFails : (s.pingFails c).Sound := by
  unfold System.pingFails
  split
  · exact h
  next conn hconn =>
    have hsound := h c conn hconn
    split
    · exact h.setConn hsound.turn
    · exact h

theorem handle {key : SessionKey} : (s.handle c key).Sound := by
  unfold System.handle
  split
  · exact h
  next conn hconn =>
    have hsound := h c conn hconn
    split
    · exact h
    · split
      · exact h.setConn
          ⟨hsound.sent, fromServer_handleMessage, hsound.stream, hsound.invited⟩
      · exact h

theorem write : (s.write c).Sound := by
  unfold System.write
  split
  · exact h
  next conn hconn =>
    have hsound := h c conn hconn
    split
    · exact h
    next d m writes hwrites =>
      have hall := hsound.writes
      rw [hwrites, forall_mem_cons] at hall
      refine send (h.setConn ?_) hall.1
      exact ⟨hsound.sent, hall.2, hsound.stream, hsound.invited⟩

theorem disconnect : (s.disconnect c).Sound := by
  unfold System.disconnect
  split
  · exact h
  next conn hconn =>
    have hsound := h c conn hconn
    split
    · exact h.setConn hsound.turn
    · exact h

/-- What happens in session mode does not touch the connections in protocol mode. -/
theorem join {data : Bytes} : (s.join c data).Sound := by
  unfold System.join
  split
  · exact h
  · exact h
  · split <;> exact h

theorem waitEnds : (s.waitEnds c).Sound := by
  unfold System.waitEnds
  split <;> exact h

theorem pair : (s.pair c).Sound := by
  unfold System.pair
  split <;> exact h

theorem pairFails : (s.pairFails c).Sound := by
  unfold System.pairFails
  split <;> exact h

theorem step {e : RelayEvent} (hstep : RelayStep s e t) : t.Sound := by
  cases hstep
  cases e with
  | connect c id addr => exact h.connect
  | checkCapacity c => exact h.checkCapacity
  | register c => exact h.register
  | tick c => exact h.tick
  | pingFails c => exact h.pingFails
  | read c n => exact h.onConn fun conn hconn => hconn.read
  | handle c key => exact h.handle
  | write c => exact h.write
  | disconnect c => exact h.disconnect
  | call c call => exact h.onConn fun conn hconn => hconn.startCall
  | receive c => exact h.onConn fun conn hconn => hconn.receive
  | endOfStream c => exact h.onConn fun conn hconn => hconn.endOfStream
  | timeOut c => exact h.onConn fun conn hconn => hconn.timeOut
  | drop c => exact h.onConn fun conn hconn => hconn.drop
  | join a data => exact h.join
  | waitEnds a => exact h.waitEnds
  | pair a => exact h.pair
  | pairFails a => exact h.pairFails

/-- Every run keeps the connections sound, whatever the clients do. -/
theorem reach (hreach : Reach RelayStep (fun _ _ => True) s t) : t.Sound :=
  hreach.invariant h fun _ hstep hs => hs.step hstep

end

end System.Sound

end steps

theorem sound_new {session : Listener} : (System.new session).Sound := fun _ _ h => nomatch h

/-- The handler finds in its buffer what its client has written. -/
theorem Conn.Sound.read_eq (h : conn.Sound) : conn.read n = conn ∨ conn.read n = { conn with
    toServer := conn.toServer.drop n
    buffered := (conn.toServer.take n).map fun m => (m.messageType, m.body) } := by
  unfold Conn.read
  dsimp only
  split
  · right
    rw [cutMessages_flatMap (fun m hm => h.sent m (mem_of_mem_take hm))
      (length_le_flatMap_encode _)]
  · exact .inl rfl

/-- The invitations that the clients hold at any time lead nowhere. -/
theorem System.Sound.not_reaches (h : s.Sound) (hinv : inv ∈ s.invitations c) :
    ¬ t.Reaches parseIp d inv := by
  unfold invitations at hinv
  split at hinv
  · cases hinv
  next conn hconn =>
    obtain ⟨⟨call, outcome⟩, hmem, hout⟩ := mem_filterMap.mp hinv
    have hblank := (h c conn hconn).invited _ hmem inv
    cases outcome with
    | invited inv' =>
      cases hout
      exact not_reaches_of_blank (hblank rfl)
    | joined | alive | failed => cases hout

section requests

variable {target : DeviceId} {key : SessionKey} {client : Client}

theorem requested_eq_some (h : s.requested c = some target) :
    ∃ conn body rest req, s.conns c = some conn ∧ (conn.phase = .serving ∧ conn.writes = []) ∧
      conn.buffered = (.connectRequest, body) :: rest ∧ ConnectRequest.decode body = some req ∧
      DeviceId.fromBytes req.id = .ok target := by
  unfold requested at h
  split at h
  · cases h
  next conn hconn =>
    split at h
    next hready =>
      split at h
      next body rest hbuffered =>
        split at h
        next req hreq =>
          refine ⟨conn, body, rest, req, hconn, hready, hbuffered, hreq, ?_⟩
          cases hid : DeviceId.fromBytes req.id with
          | error e =>
            rw [hid] at h
            cases h
          | ok id =>
            rw [hid] at h
            cases h
            rfl
        · cases h
      · cases h
    · cases h

/-- A request for a device that is not registered is answered with an error. -/
theorem handle_of_unregistered (key : SessionKey) (h : s.requested c = some target)
    (hnone : s.server.clients.find? target = none) :
    ∃ conn, (s.handle c key).conns c = some conn ∧ conn.writes = [(c, .response .notFound)] := by
  obtain ⟨conn, body, rest, req, hconn, hready, hbuffered, hreq, hid⟩ := requested_eq_some h
  refine ⟨{ conn with buffered := rest, writes := [(c, .response .notFound)] }, ?_, rfl⟩
  simp only [handle, hconn, hbuffered, if_pos hready, handleMessage, hreq,
    handleConnectRequest, hid, hnone]
  exact conns_setConn_self s

/-- A request for a registered device is answered with two invitations into a new session. -/
theorem handle_of_registered (key : SessionKey) (h : s.requested c = some target)
    (hclient : s.server.clients.find? target = some client) :
    ∃ conn, (s.handle c key).conns c = some conn ∧ conn.writes =
        [(c, .sessionInvitation ⟨conn.deviceId.bytes, key.bytes, [], 0, false⟩),
          (client.writer, .sessionInvitation ⟨conn.deviceId.bytes, key.bytes, [], 0, true⟩)] ∧
      (s.handle c key).server =
        s.server.setSession key.bytes (some ⟨conn.deviceId, target, none⟩) := by
  obtain ⟨conn, body, rest, req, hconn, hready, hbuffered, hreq, hid⟩ := requested_eq_some h
  refine ⟨{ conn with
    buffered := rest
    writes := [(c, .sessionInvitation ⟨conn.deviceId.bytes, key.bytes, [], 0, false⟩),
      (client.writer, .sessionInvitation ⟨conn.deviceId.bytes, key.bytes, [], 0, true⟩)] },
    ?_, rfl, ?_⟩
  · simp only [handle, hconn, hbuffered, if_pos hready, handleMessage, hreq,
      handleConnectRequest, hid, hclient]
    exact conns_setConn_self s
  · simp only [handle, hconn, hbuffered, if_pos hready, handleMessage, hreq,
      handleConnectRequest, hid, hclient]

section
variable (h : s.requested c = some target)
include h

theorem refuses_handle_iff : (s.handle c key).Refuses c ↔ s.server.clients.find? target = none := by
  constructor
  · rintro ⟨conn, m, hconn, hm, herror⟩
    cases hclient : s.server.clients.find? target with
    | none => rfl
    | some client =>
      obtain ⟨conn', hconn', hwrites, -⟩ := handle_of_registered key h hclient
      cases hconn.symm.trans hconn'
      rw [hwrites] at hm
      simp only [mem_cons, Prod.mk.injEq, not_mem_nil, or_false] at hm
      rcases hm with ⟨-, rfl⟩ | ⟨-, rfl⟩ <;> cases herror
  · intro hnone
    obtain ⟨conn, hconn, hwrites⟩ := handle_of_unregistered key h hnone
    exact ⟨conn, _, hconn, hwrites ▸ mem_singleton_self _, rfl⟩

/-- Whatever happens after the answer, a request is served only by an error. -/
theorem served_iff (ht : t.Sound) :
    t.Served parseIp s (s.handle c key) c target ↔ s.server.clients.find? target = none := by
  constructor
  · rintro (hrefuses | ⟨client, -, inv, hinv, -, -, hreaches, -⟩)
    · exact (refuses_handle_iff h).mp hrefuses
    · exact absurd hreaches (ht.not_reaches hinv)
  · exact fun hnone => .inl ((refuses_handle_iff h).mpr hnone)

end

end requests

/-- The messages that a call does not wait for make it fail, unless they report an error. -/
theorem react_failed_iff (hm : m.isError = false) :
    (∃ e, call.react m = some (.failed e)) ↔ call.answeredBy m = false := by
  cases call <;> cases m <;> simp [Call.react, Call.answeredBy, isError] at hm ⊢ <;>
    simp [hm]

theorem aborts_iff (h : s.Sound) :
    s.Aborts c ↔ ∃ conn call m rest, s.conns c = some conn ∧ conn.call = some call ∧
      readMessage conn.toClient = some (.ok m, rest) ∧ m.isError = false ∧
        call.answeredBy m = false := by
  constructor
  · rintro ⟨conn, call, e, hconn, hcall, hresults, hnoError⟩
    rcases readMessage_stream (h c conn hconn).stream with hnone | ⟨m, rest, hread, -, -⟩
    · simp only [Conn.receive, hcall, hnone] at hresults
      simp at hresults
    · have hm := hnoError m rest hread
      refine ⟨conn, call, m, rest, hconn, hcall, hread, hm, ?_⟩
      refine (react_failed_iff hm).mp ⟨e, ?_⟩
      simp only [Conn.receive, hcall, hread] at hresults
      split at hresults
      next outcome hreact =>
        simp only [Conn.finish, append_cancel_left_eq, cons.injEq, Prod.mk.injEq,
          true_and, and_true] at hresults
        rw [hreact, hresults]
      · simp at hresults
  · rintro ⟨conn, call, m, rest, hconn, hcall, hread, hm, hanswered⟩
    obtain ⟨e, hreact⟩ := (react_failed_iff hm).mpr hanswered
    refine ⟨conn, call, e, hconn, hcall, ?_, ?_⟩
    · simp only [Conn.receive, hcall, hread, hreact, Conn.finish]
    · intro m' rest' hread'
      cases hread.symm.trans hread'
      exact hm

/-- In every run of a relay and any number of clients, in every state: the handlers come to all that
their clients have written; a request is served exactly if its target is not registered, which is
an error of the server, and never by invitations; and a client fails on a message that reports no
error exactly if it waits for another one. -/
theorem relay_interoperates_iff {session : Listener}
    (h : Reach RelayStep (fun _ _ => True) (.new session) s) :
    (∀ c conn n, s.conns c = some conn → conn.read n = conn ∨ conn.read n = { conn with
      toServer := conn.toServer.drop n
      buffered := (conn.toServer.take n).map fun m => (m.messageType, m.body) }) ∧
    (∀ parseIp c target key t, s.requested c = some target →
      Reach RelayStep (fun _ _ => True) (s.apply (.handle c key)) t →
      (t.Served parseIp s (s.apply (.handle c key)) c target ↔
        s.server.clients.find? target = none)) ∧
    ∀ c, s.Aborts c ↔ ∃ conn call m rest, s.conns c = some conn ∧ conn.call = some call ∧
      readMessage conn.toClient = some (.ok m, rest) ∧ m.isError = false ∧
        call.answeredBy m = false := by
  have hsound := sound_new.reach h
  refine ⟨fun c conn n hconn => (hsound c conn hconn).read_eq, ?_, fun c => aborts_iff hsound⟩
  intro parseIp c target key t hrequested ht
  exact served_iff hrequested (hsound.handle.reach ht)

section runs

def deviceOf (n : UInt8) : DeviceId := ⟨n :: replicate 31 0, rfl⟩

def someKey : SessionKey := ⟨replicate 32 7, length_replicate⟩

def someListener : Listener := ⟨⟨.v4 0 0 0 0, 22070⟩, by decide⟩

def someAddr : SocketAddr := ⟨.v4 192 168 1 1, 22067⟩

/-- A client waits for invitations and another one, whose request the server has read, for its
session with it. -/
def asking : System := [.connect 0 (deviceOf 1) someAddr, .checkCapacity 0, .register 0,
    .connect 1 (deviceOf 2) someAddr, .checkCapacity 1, .register 1,
    .call 1 .waitInvitation, .call 0 (.requestSession (deviceOf 2)), .read 0 1].foldl apply (.new someListener)

/-- Both have read their invitations. -/
def invited : System := [.write 0, .write 0, .receive 0, .receive 1].foldl apply
    (asking.apply (.handle 0 someKey))

/-- A client joins while a ping is on its way. -/
def pinged : System := [.connect 0 (deviceOf 1) someAddr, .checkCapacity 0, .register 0, .tick 0,
    .call 0 .joinRelay].foldl apply (.new someListener)

theorem relay_interoperates_iff_pair : asking.requested 0 = some (deviceOf 2) ∧
      ∀ parseIp, ¬ invited.Served parseIp asking (asking.apply (.handle 0 someKey)) 0
        (deviceOf 2) := by
  have hrequested : asking.requested 0 = some (deviceOf 2) := by decide +kernel
  have hregistered : asking.server.clients.find? (deviceOf 2) ≠ none := by decide +kernel
  refine ⟨hrequested, fun parseIp hserved => hregistered ?_⟩
  have h := (relay_interoperates_iff (.foldl (fun _ _ => .step) _ : Reach RelayStep
    (fun _ _ => True) (.new someListener) asking)).2.1
  exact (h parseIp 0 (deviceOf 2) someKey invited hrequested (.foldl (fun _ _ => .step) _)).mp hserved

/-- Both clients get invitations with port 0, and a client that joins fails on the first ping. -/
theorem relay_not_interoperable : ∃ s answered t pinged : System,
      Reach RelayStep (fun _ _ => True) (.new someListener) s ∧
      s.requested 0 = some (deviceOf 2) ∧
      s.server.clients.find? (deviceOf 2) = some ⟨deviceOf 2, 1⟩ ∧
      answered = s.apply (.handle 0 someKey) ∧ Reach RelayStep (fun _ _ => True) answered t ∧
      t.invitations 0 = [⟨(deviceOf 1).bytes, someKey.bytes, [], 0, false⟩] ∧
      t.invitations 1 = [⟨(deviceOf 1).bytes, someKey.bytes, [], 0, true⟩] ∧
      (∀ parseIp, ¬ t.Served parseIp s answered 0 (deviceOf 2)) ∧
      Reach RelayStep (fun _ _ => True) (.new someListener) pinged ∧ pinged.Aborts 0 := by
  have hrequested : asking.requested 0 = some (deviceOf 2) := by decide +kernel
  have hregistered : asking.server.clients.find? (deviceOf 2) = some ⟨deviceOf 2, 1⟩ := by
    decide +kernel
  have hreach : Reach RelayStep (fun _ _ => True) (.new someListener) asking :=
    .foldl (fun _ _ => .step) _
  have hinvited : Reach RelayStep (fun _ _ => True) (asking.apply (.handle 0 someKey)) invited :=
    .foldl (fun _ _ => .step) _
  have hpinged : Reach RelayStep (fun _ _ => True) (.new someListener) pinged :=
    .foldl (fun _ _ => .step) _
  refine ⟨asking, _, invited, pinged, hreach, hrequested, hregistered, rfl, hinvited,
    by decide +kernel, by decide +kernel, fun parseIp hserved => ?_, hpinged, ?_⟩
  · have hasking : asking.Sound := sound_new.reach hreach
    have hsound : invited.Sound := (hasking.step .step).reach hinvited
    have hnone := (served_iff hrequested hsound).mp hserved
    rw [hregistered] at hnone
    cases hnone
  · exact (aborts_iff (sound_new.reach hpinged)).mpr
      ⟨_, .joinRelay, .ping, [], rfl, rfl, by decide +kernel, rfl, rfl⟩

end runs

end Syncthing.Relay
