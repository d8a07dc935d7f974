import Syncthing.Net.DerpStream

/-! Whose packets come out of a pipe, and who is registered under an ID. The server is that of
`Relaying`; the bytes between its tasks are left out. -/
namespace Syncthing.Derp

open Transition Derp.Frame Server Function

/-- A server, and the frames that the `recv_task` at `sink` has read for a pipe towards `peer`. -/
structure Peering where
  peer : DeviceId
  sink : Nat
  server : Server
  taken : List Frame

namespace Peering

inductive Event where
  | accept (c : Nat) (d : DeviceId)
  | packet (c : Nat) (target : DeviceId)
  | other

inductive Step (s : Peering) : Event → Peering → Prop where
  | accept {c d} : Step s (.accept c d) { s with server := s.server.accept c d }
  | packet {c conn i p} (hconn : s.server.conns c = some conn) (hrun : conn.running = true) :
    Step s (.packet c i) { s with server := s.server.forward conn.device i p }
  | deliver {conn f q} (hconn : s.server.conns s.sink = some conn)
    (hrecv : conn.queue.recv = (some f, q)) : Step s .other { s with
      server := s.server.setConn s.sink { conn with queue := q }, taken := s.taken ++ [f] }
  | hangUp {c} : Step s .other { s with server := s.server.hangUp c }
  | reinsert {c} : Step s .other { s with server := s.server.reinsert c }
  | timeOut {d} : Step s .other { s with server := s.server.timeOut d }

variable {s s' : Peering} {e : Event} {peer : DeviceId} {sink : Nat}

def new (peer : DeviceId) (sink : Nat) : Peering := ⟨peer, sink, ⟨fun _ => none, fun _ => none⟩, []⟩

/-- No client comes with the ID of one that is served, and only the peer sends to the client of the
pipe. -/
def Guard (s : Peering) : Event → Prop
  | .accept _ d => ∀ k conn, s.server.conns k = some conn → conn.running = true → conn.device ≠ d
  | .packet c i => s.server.clients i = some s.sink →
      ∀ conn, s.server.conns c = some conn → conn.device = s.peer
  | .other => True

/-- The packets that are read are those of the peer, and no other client is registered under the ID
of one that is served. -/
structure Own (s : Peering) : Prop where
  packets : ∀ sender p, .recvPacket sender p ∈ s.taken → sender = s.peer
  sole : ∀ c conn k, s.server.conns c = some conn → conn.running = true →
    s.server.clients conn.device = some k → k = c

structure Inv (s : Peering) : Prop extends Own s where
  queued : ∀ conn, s.server.conns s.sink = some conn → ∀ sender p,
    .recvPacket sender p ∈ conn.queue.queue → sender = s.peer
  kept : ∀ c conn, s.server.conns c = some conn → conn.removed = none

theorem mem_trySend {q : Mailbox Frame channelCapacity} {f g : Frame}
    (h : f ∈ (q.trySend g).queue) : f ∈ q.queue ∨ f = g := by
  rw [Mailbox.queue_trySend] at h
  simpa using List.mem_of_mem_take h

theorem inv_step (hg : s.Guard e) (hs : s.Step e s') (h : s.Inv) : s'.Inv := by
  obtain ⟨⟨hpackets, hsole⟩, hqueued, hkept⟩ := id h
  have hsend := @mem_trySend
  cases hs with
  | accept =>
    simp only [Guard] at hg
    unfold Server.accept
    split
    · exact h
    · refine ⟨⟨hpackets, ?_⟩, ?_, ?_⟩ <;> grind [Mailbox.empty]
  | packet hconn hrun =>
    simp only [Guard] at hg
    unfold forward
    split
    · exact h
    · split
      · exact h
      · split
        · refine ⟨⟨hpackets, ?_⟩, ?_, ?_⟩ <;> simp only [setConn] <;> grind
        · exact h
  | deliver hconn hrecv =>
    have hqueue := Mailbox.queue_of_recv hrecv
    refine ⟨⟨?_, ?_⟩, ?_, ?_⟩ <;> simp only [setConn] <;> grind
  | @hangUp c =>
    unfold Server.hangUp
    split
    · exact h
    next conn hconn =>
      split
      · exact h
      next hrun =>
        have hlater : (s.server.clients conn.device).filter (· ≠ c) = none := by
          cases hk : s.server.clients conn.device with
          | none => rfl
          | some k => simp [hsole c conn k hconn (by simpa using hrun) hk]
        refine ⟨⟨hpackets, ?_⟩, ?_, ?_⟩ <;> grind [Mailbox.empty]
  | reinsert =>
    unfold Server.reinsert
    split
    · exact h
    next hconn =>
      rw [hkept _ _ hconn]
      exact h
  | timeOut =>
    unfold Server.timeOut
    split
    · exact h
    · simp only
      split
      · exact ⟨⟨hpackets, by grind⟩, hqueued, hkept⟩
      · split
        · refine ⟨⟨hpackets, ?_⟩, ?_, ?_⟩ <;> simp only [setConn] <;> grind
        · exact ⟨⟨hpackets, by grind⟩, hqueued, hkept⟩

/-- In every such run a pipe carries the chosen peer. -/
theorem pipe_carries_peer (h : Reach Step Guard (new peer sink) s) : s.Own :=
  (h.invariant (I := Inv) ⟨⟨by simp [new], by simp [new]⟩, by simp [new], by simp [new]⟩
    inv_step).toOwn

theorem pipe_carries_peer_byte : ∃ s, Reach Step Guard (new (deviceOf 1) 2) s ∧
    s.taken = [.recvPacket (deviceOf 1) [7]] ∧ s.Own := by
  have h : Reach Step Guard (new (deviceOf 1) 2) (new (deviceOf 1) 2) := .refl
  have h := h.next (.accept (c := 1) (d := deviceOf 1)) (by simp [Guard, new])
    |>.next (.accept (c := 2) (d := deviceOf 2)) (by
      intro k conn hconn _
      obtain ⟨-, rfl⟩ : _ ∧ _ = conn := by simpa [new, Server.accept, update_apply] using hconn
      decide)
    |>.next (.packet (c := 1) (i := deviceOf 2) (p := [7]) rfl rfl) (by
      rintro - conn hconn
      obtain rfl : _ = conn := Option.some.inj hconn
      rfl)
    |>.next (.deliver rfl rfl) trivial
  exact ⟨_, h, rfl, pipe_carries_peer h⟩

/-- The pipe carries a packet of a third client, and then a client takes the ID of the peer. -/
theorem pipe_carries_others : ∃ s, Reach Step (fun _ _ => True) (new (deviceOf 1) 2) s ∧
    s.taken = [.recvPacket (deviceOf 3) [9]] ∧ s.server.connected 1 = true ∧
    s.server.clients (deviceOf 1) = some 4 :=
  ⟨_, Reach.refl.go (.accept (c := 1) (d := deviceOf 1)) |>.go (.accept (c := 2) (d := deviceOf 2))
    |>.go (.accept (c := 3) (d := deviceOf 3))
    |>.go (.packet (c := 3) (i := deviceOf 2) (p := [9]) rfl rfl) |>.go (.deliver rfl rfl)
    |>.go (.accept (c := 4) (d := deviceOf 1)), rfl, rfl, rfl⟩

end Peering

end Syncthing.Derp
