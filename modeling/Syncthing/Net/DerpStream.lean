import Syncthing.Lib.Transition
import Syncthing.Net.Derp

/-! When what is written to a pipe comes out of the pipe of the peer, in order and without loss. -/
namespace Syncthing.Derp

open Wire Transition List Derp.Frame Mailbox Relaying Server

variable {f : Frame} {id : DeviceId} {payload rest : Bytes}

theorem takeId_append : takeId (id.bytes ++ rest) = .ok (id, rest) := by
  have htake : (id.bytes ++ rest).take 32 = id.bytes := take_left' id.size
  have hdrop : (id.bytes ++ rest).drop 32 = rest := drop_left' id.size
  unfold takeId
  simp only [htake, hdrop, id.size, dite_true]

theorem takeBytes_append {n : Nat} {bytes : Bytes} (h : bytes.length = n) :
    takeBytes n (bytes ++ rest) = .ok (bytes, rest) := by
  unfold takeBytes
  rw [if_neg (by rw [length_append]; omega), take_left' h, drop_left' h]

theorem length_packetFields : (packetFields id payload).length = 36 + payload.length := by
  simp only [packetFields, length_append, id.size, length_beBytes]

theorem decodePacket_packetFields {kind : String} {make : DeviceId → Bytes → Frame}
    (h : payload.length + 37 ≤ maxFrameSize) :
    decodePacket kind make (36 + payload.length + 1) (packetFields id payload ++ rest) =
      .ok (make id payload) := by
  have hlen : fromBe (beBytes 4 payload.length) = payload.length := by
    refine fromBe_beBytes_of_lt ?_
    unfold maxFrameSize at h
    omega
  unfold decodePacket packetFields
  rw [if_neg (by omega), append_assoc, append_assoc]
  simp only [takeId_append, takeBytes_append (length_beBytes 4 payload.length), hlen,
    takeBytes_append rfl, bind, Except.bind, pure, Except.pure]
  rw [if_neg (by omega)]

theorem decodeFields_fields (h : f.fields.length + 1 ≤ maxFrameSize) :
    decodeFields (f.fields.length + 1) (f.fields ++ rest) f.frameType = .ok f := by
  cases f with
  | clientInfo deviceId version =>
    simp [decodeFields, fields, frameType, deviceId.size, takeId_append, takeByte,
      bind, Except.bind, pure, Except.pure]
  | serverInfo version => rfl
  | sendPacket | recvPacket =>
    simp only [fields, length_packetFields] at h
    simp only [decodeFields, fields, frameType, length_packetFields]
    exact decodePacket_packetFields (by omega)
  | keepAlive => rfl
  | closePeer target =>
    simp [decodeFields, fields, frameType, target.size, takeId_append, bind, Except.bind, pure,
      Except.pure]

theorem length_encode : f.encode.length = 4 + (f.fields.length + 1) := by
  simp only [encode, length_append, length_beBytes, length_cons]

section
variable (h : f.fields.length + 1 ≤ maxFrameSize)
include h

theorem fromBe_take_encode : fromBe ((f.encode ++ rest).take 4) = f.fields.length + 1 := by
  rw [encode, append_assoc, take_left' (length_beBytes 4 _)]
  refine fromBe_beBytes_of_lt ?_
  unfold maxFrameSize at h
  omega

/-- A frame that is not too large is read back, whatever follows it. -/
theorem decode_encode_append : decode (f.encode ++ rest) = .ok (some (f, f.encode.length)) := by
  have hdrop : (f.encode ++ rest).drop 4 = f.frameType.code :: (f.fields ++ rest) := by
    rw [encode, append_assoc, drop_left' (length_beBytes 4 _), cons_append]
  have htotal := @length_encode f
  unfold decode
  simp only [fromBe_take_encode h, hdrop, takeByte, length_append]
  rw [if_neg (by omega), if_neg (by omega), if_neg (by omega), if_neg (by omega)]
  simp only [bind, Except.bind, FrameType.fromU8_code, decodeFields_fields h, pure, Except.pure,
    htotal]

theorem decode_encode : decode f.encode = .ok (some (f, f.encode.length)) := by
  simpa using @decode_encode_append f [] h

/-- A frame that is not too large is the next one of a stream that begins with it. -/
theorem nextFrame_encode : nextFrame (f.encode ++ rest) = .frame f.encode rest := by
  have htotal := @length_encode f
  unfold nextFrame
  simp only [fromBe_take_encode h, length_append]
  rw [if_neg (by omega), if_neg (by omega), if_neg (by omega), ← htotal, take_left, drop_left]

end

/-- The packet that the `read_task` of a connection comes to next. -/
def Server.nextPacket (s : Server) (c : Nat) : Option (DeviceId × Bytes) :=
  match s.conns c with
  | none => none
  | some conn =>
    match nextFrame conn.inbound with
    | .frame buf _ =>
      match decode buf with
      | .ok (some (.sendPacket target payload, _)) => some (target, payload)
      | _ => none
    | _ => none

/-- What one write can carry: something, and no more than a frame holds. -/
def Fits (payload : Bytes) : Prop := payload ≠ [] ∧ payload.length + 37 ≤ maxFrameSize

/-- A pipe is a reliable stream of bytes. -/
structure Reliable (s : Relaying) : Prop where
  ordered : s.returned <+: s.written
  endOfFile : s.eof = true → s.closed = true
  /-- Nothing is lost on the way. -/
  complete : s.closed = false → s.Drained → s.returned = s.written

/-- Writes fit a frame; the server passes on what comes from the source, and nothing else, to the
sink while that is connected; and there is room in the channels. -/
def RelayGuard (s : Relaying) : RelayEvent → Prop
  | .write buf => Fits buf
  | .readTask c => ∀ target payload conn, s.server.nextPacket c = some (target, payload) →
      s.server.conns s.sink = some conn → conn.running = true →
      if c = s.source then
        s.server.clients target = some s.sink ∧ conn.queue.queue.length < channelCapacity
      else s.server.clients target ≠ some s.sink
  | .receive => s.reader.readRx.queue.length < channelCapacity
  | .shutdown | .drop | .send | .accept .. | .arrive .. | .writeTask _ | .hangUp _ | .reinsert _
  | .reset _ | .timeOut _ | .endOfStream | .read _ => True

/-- Two pipes that have just been connected. The rest of the server is as it is. -/
structure Relaying.IsFresh (s : Relaying) : Prop where
  distinct : s.source ≠ s.sink
  source : ∃ conn, s.server.conns s.source = some conn ∧ conn.inbound = [] ∧
    conn.running = true ∧ conn.broken = false
  sink : ∃ conn, s.server.conns s.sink = some conn ∧ conn.queue = .empty ∧ conn.outbound = [] ∧
    conn.running = true ∧ conn.broken = false
  writer : s.writer = ⟨.empty, true, true⟩
  reader : s.reader = ⟨true, .empty, []⟩
  written : s.written = []
  returned : s.returned = []
  eof : s.eof = false

def Frame.payloadOf : Frame → Bytes
  | .recvPacket _ payload => payload
  | _ => []

/-- The frames a server sends to the sink. -/
def Frame.IsRelayed : Frame → Prop
  | .recvPacket _ payload => Fits payload
  | .closePeer _ => True
  | _ => False

/-- What has come to the queue of the sink or farther, in its order. -/
def Relaying.arrived (s : Relaying) (out queue : List Frame) : Bytes :=
  s.returned ++ s.reader.readBuffer ++ s.reader.readRx.queue.flatten ++
    out.flatMap payloadOf ++ queue.flatMap payloadOf


/-- What is where between the pipes: `sent` in the channel of the writer, `inside` in the stream
to the server and `out` in the stream from it. -/
structure Flow (s : Relaying) (a b : Conn) (sent inside : List Bytes) (out : List Frame) :
    Prop where
  distinct : s.source ≠ s.sink
  source : s.server.conns s.source = some a
  sink : s.server.conns s.sink = some b
  channel : s.writer.writeTx.queue = sent.map fun p => (sendPacket s.target p).encode
  inbound : a.inbound = inside.flatMap fun p => (sendPacket s.target p).encode
  outbound : b.outbound = out.flatMap encode
  fits : ∀ p ∈ inside ++ sent, Fits p
  relayed : ∀ f ∈ out ++ b.queue.queue, f.IsRelayed
  received : ∀ p ∈ s.reader.readRx.queue, p ≠ []
  ordered : s.arrived out b.queue.queue <+: s.written
  behind : a.running = true → b.running = true →
    s.arrived out b.queue.queue ++ inside.flatten ++ sent.flatten <+: s.written
  whole : a.running = true → b.running = true → s.writer.running = true →
    s.arrived out b.queue.queue ++ inside.flatten ++ sent.flatten = s.written
  sending : s.writer.running = false → s.closed = true
  receiving : s.reader.running = false → s.closed = true
  eof : s.eof = true → s.closed = true

section
variable {s : Relaying} {a b a' b' : Conn} {sent inside : List Bytes} {out : List Frame}

section
variable (h : Flow s a b sent inside out)
include h

theorem Flow.closed_eq : s.closed =
    (!s.writer.isOpen || !(a.running && !a.broken) || !(b.running && !b.broken)) := by
  simp only [closed, connected, h.source, h.sink, Option.any_some]

theorem Flow.connected (hclosed : s.closed = false) :
    a.running = true ∧ b.running = true ∧ s.writer.running = true := by
  have hwriter : s.writer.running = true := by
    cases hrunning : s.writer.running with
    | true => rfl
    | false =>
      rw [h.sending hrunning] at hclosed
      cases hclosed
  rw [h.closed_eq] at hclosed
  simp only [Bool.or_eq_false_iff, Bool.not_eq_false', Bool.and_eq_true] at hclosed
  exact ⟨hclosed.1.2.1, hclosed.2.1, hwriter⟩

/-- A pipe that loses nothing is reliable. -/
theorem Flow.reliable : Reliable s := by
  refine ⟨?_, h.eof, fun hclosed hdrained => ?_⟩
  · refine List.IsPrefix.trans ?_ h.ordered
    simp only [arrived, append_assoc]
    exact prefix_append _ _
  · obtain ⟨ha, hb, hwriter⟩ := h.connected hclosed
    obtain ⟨hchannel, hinbound, hsink, hrx, hbuffer⟩ := hdrained
    obtain ⟨hqueue, houtbound⟩ := hsink b h.sink
    have hsent : sent = [] := by
      rw [h.channel] at hchannel
      exact map_eq_nil_iff.mp hchannel
    have hnonempty : ∀ f : Frame, f.encode ≠ [] := by
      intro f hf
      have hlength := @length_encode f
      rw [hf, length_nil] at hlength
      omega
    have hinside : inside = [] := by
      have hnil := (h.inbound.symm.trans (hinbound a h.source))
      rw [flatMap_eq_nil_iff] at hnil
      exact eq_nil_iff_forall_not_mem.mpr fun p hp => hnonempty _ (hnil p hp)
    have hout : out = [] := by
      have hnil := h.outbound.symm.trans houtbound
      rw [flatMap_eq_nil_iff] at hnil
      exact eq_nil_iff_forall_not_mem.mpr fun p hp => hnonempty _ (hnil p hp)
    have hwhole := h.whole ha hb hwriter
    simpa [arrived, hsent, hinside, hout, hqueue, hrx, hbuffer] using hwhole

end

theorem Relaying.IsFresh.flow (h : s.IsFresh) : ∃ a b, Flow s a b [] [] [] := by
  obtain ⟨a, ha, hinbound, harun, habroken⟩ := h.source
  obtain ⟨b, hb, hqueue, houtbound, hbrun, hbbroken⟩ := h.sink
  have hclosed : s.closed = false := by
    simp [closed, connected, ha, hb, h.writer, harun, habroken, hbrun, hbbroken]
  refine ⟨a, b, ⟨h.distinct, ha, hb, ?_, hinbound, houtbound, by simp, ?_, ?_, ?_, ?_, ?_, ?_, ?_,
    ?_⟩⟩
  all_goals simp [h.writer, h.reader, h.written, h.returned, h.eof, hqueue, empty, arrived]

/-- The stream from a client is as it was. -/
structure Conn.SameInbound (a a' : Conn) : Prop where
  inbound : a'.inbound = a.inbound
  running : a'.running = true → a.running = true
  broken : a.broken = true → a'.broken = true

/-- The stream to a client is as it was, and while it is served, so are the packets in its queue. -/
structure Conn.SameOutbound (b b' : Conn) : Prop where
  outbound : b'.outbound = b.outbound
  running : b'.running = true → b.running = true
  broken : b.broken = true → b'.broken = true
  relayed : (∀ f ∈ b.queue.queue, f.IsRelayed) → ∀ f ∈ b'.queue.queue, f.IsRelayed
  queue : b'.queue.queue.flatMap payloadOf <+: b.queue.queue.flatMap payloadOf
  kept : b'.running = true → b'.queue.queue.flatMap payloadOf = b.queue.queue.flatMap payloadOf

theorem Conn.SameOutbound.of_queue (houtbound : b'.outbound = b.outbound)
    (hrunning : b'.running = true → b.running = true)
    (hbroken : b.broken = true → b'.broken = true) (hqueue : b'.queue = b.queue) :
    b.SameOutbound b' :=
  ⟨houtbound, hrunning, hbroken, by rw [hqueue]; exact id, by rw [hqueue], fun _ => by rw [hqueue]⟩

theorem Conn.SameOutbound.ended (houtbound : b'.outbound = b.outbound)
    (hrunning : b'.running = false) (hbroken : b.broken = true → b'.broken = true)
    (hqueue : b'.queue = .empty) : b.SameOutbound b' := by
  have hnot : ∀ {P : Prop}, b'.running = true → P := fun h => by
    rw [hrunning] at h
    cases h
  exact ⟨houtbound, hnot, hbroken, by simp [hqueue, empty], by simp [hqueue, empty], hnot⟩

/-- A step of the server that leaves the stream from the source and the one to the sink. -/
theorem Flow.onServer {server : Server} (h : Flow s a b sent inside out)
    (ha : server.conns s.source = some a') (hb : server.conns s.sink = some b')
    (hsource : a.SameInbound a') (hsink : b.SameOutbound b') :
    Flow (s.onServer server) a' b' sent inside out := by
  have hclosed : s.closed = true → (s.onServer server).closed = true := by
    rw [h.closed_eq]
    simp only [Relaying.closed, Relaying.onServer, Server.connected, ha, hb, Option.any_some,
      Bool.or_eq_true, Bool.not_eq_true', Bool.and_eq_false_iff, Bool.not_eq_false']
    have hstays : ∀ {x y : Bool}, (y = true → x = true) → x = false → y = false := by decide
    exact Or.imp (Or.imp id (Or.imp (hstays hsource.running) hsource.broken))
      (Or.imp (hstays hsink.running) hsink.broken)
  have harrived : (s.onServer server).arrived out b'.queue.queue <+:
      s.arrived out b.queue.queue := by
    unfold Relaying.arrived Relaying.onServer
    exact (List.prefix_append_right_inj _).mpr hsink.queue
  have hsame : b'.running = true → (s.onServer server).arrived out b'.queue.queue =
      s.arrived out b.queue.queue := fun hrun => by
    unfold Relaying.arrived Relaying.onServer
    rw [hsink.kept hrun]
  refine ⟨h.distinct, ha, hb, h.channel, hsource.inbound.trans h.inbound,
    hsink.outbound.trans h.outbound,
    h.fits, fun f hf => ?_, h.received, harrived.trans h.ordered, fun ha' hb' => ?_,
    fun ha' hb' hw => ?_, fun hw => hclosed (h.sending hw), fun hr => hclosed (h.receiving hr),
    fun he => hclosed (h.eof he)⟩
  · rcases List.mem_append.mp hf with hf | hf
    · exact h.relayed f (List.mem_append_left _ hf)
    · exact hsink.relayed (fun g hg => h.relayed g (List.mem_append_right _ hg)) f hf
  · rw [hsame hb']
    exact h.behind (hsource.running ha') (hsink.running hb')
  · rw [hsame hb']
    exact h.whole (hsource.running ha') (hsink.running hb') hw

end

namespace Server

variable {s : Server} {c k : Nat} {conn : Conn} {device sender target : DeviceId} {bytes : Bytes}

@[simp] theorem conns_setConn_self : (s.setConn c conn).conns c = some conn := by simp [setConn]

theorem conns_setConn_ne (h : k ≠ c) : (s.setConn c conn).conns k = s.conns k := by
  simp [setConn, h]

/-- Passing on a packet changes the queue of its target only. -/
theorem conns_forward (hconn : s.conns k = some conn) :
    (s.forward sender target payload).conns k = some { conn with
      queue := if s.clients target = some k ∧ conn.running = true then
        conn.queue.trySend (.recvPacket sender payload) else conn.queue } := by
  unfold forward
  cases hclient : s.clients target with
  | none => simp [hconn]
  | some c =>
    by_cases hk : k = c
    · subst hk
      simp only [hconn, true_and]
      split <;> simp [hconn]
    · have hne : ¬ (some c = some k ∧ conn.running = true) := fun h => hk (Option.some.inj h.1).symm
      simp only [hne, if_false]
      split
      · exact hconn
      · split
        · rw [conns_setConn_ne hk, hconn]
        · exact hconn

theorem conns_accept (hconn : s.conns k = some conn) : (s.accept c device).conns k = some conn := by
  unfold accept
  split
  · exact hconn
  next hnone =>
    have hk : k ≠ c := by
      rintro rfl
      simp [hconn] at hnone
    simp [hk, hconn]

theorem conns_arrive_ne (h : k ≠ c) : (s.arrive c bytes).conns k = s.conns k := by
  unfold arrive
  split
  · rfl
  · exact conns_setConn_ne h

theorem conns_arrive_self (hconn : s.conns c = some conn) :
    (s.arrive c bytes).conns c = some { conn with inbound := conn.inbound ++ bytes } := by
  unfold arrive
  rw [hconn]
  exact conns_setConn_self

end Server

section
variable {s : Relaying} {a b : Conn} {sent inside : List Bytes} {out : List Frame} {c : Nat}
  {server : Server} {reader : RecvHalf} {device : DeviceId}

/-- Some contents of the streams and channels account for all that has been written. -/
def Accounted (s : Relaying) : Prop := ∃ a b sent inside out, Flow s a b sent inside out

section
variable (h : Flow s a b sent inside out)
include h

theorem Flow.accounted : Accounted s := ⟨a, b, sent, inside, out, h⟩

theorem Flow.same (hsource : ∀ conn, s.server.conns s.source = some conn → ∃ conn',
      server.conns s.source = some conn' ∧ conn.SameInbound conn')
    (hsink : ∀ conn, s.server.conns s.sink = some conn → ∃ conn',
      server.conns s.sink = some conn' ∧ conn.SameOutbound conn') :
    Accounted (s.onServer server) := by
  obtain ⟨a', ha', hsame⟩ := hsource a h.source
  obtain ⟨b', hb', hsame'⟩ := hsink b h.sink
  exact ⟨a', b', sent, inside, out, h.onServer ha' hb' hsame hsame'⟩

/-- A step that changes one connection: of the source not its stream, of the sink not what it is
to be sent. -/
theorem Flow.touch {conn conn' : Conn} (hconn : s.server.conns c = some conn)
    (hs : server.conns = Function.update s.server.conns c (some conn'))
    (hin : c = s.source → conn.SameInbound conn') (hout : c = s.sink → conn.SameOutbound conn') :
    Accounted (s.onServer server) := by
  refine h.same (fun x hx => ?_) fun x hx => ?_
  · by_cases hc : c = s.source
    · subst hc
      cases hconn.symm.trans hx
      exact ⟨conn', by simp [hs], hin rfl⟩
    · exact ⟨x, by simpa [hs, Ne.symm hc] using hx, rfl, id, id⟩
  · by_cases hc : c = s.sink
    · subst hc
      cases hconn.symm.trans hx
      exact ⟨conn', by simp [hs], hout rfl⟩
    · exact ⟨x, by simpa [hs, Ne.symm hc] using hx, .of_queue rfl id id rfl⟩

theorem Flow.accept : Accounted (s.onServer (s.server.accept c device)) :=
  h.same (fun conn hconn => ⟨conn, conns_accept hconn, rfl, id, id⟩)
    fun conn hconn => ⟨conn, conns_accept hconn, .of_queue rfl id id rfl⟩

theorem Flow.arrive {bytes : Bytes} (hc : c ≠ s.source) :
    Accounted (s.onServer (s.server.arrive c bytes)) := by
  unfold Server.arrive
  split
  · exact h.accounted
  next hconn => exact h.touch hconn rfl (fun heq => absurd heq hc) fun _ => .of_queue rfl id id rfl

/-- A handler that has ended passes on nothing. -/
theorem Flow.hangUp : Accounted (s.onServer (s.server.hangUp c)) := by
  unfold Server.hangUp
  split
  · exact h.accounted
  next hconn =>
    split
    · exact h.accounted
    · exact h.touch hconn rfl (fun _ => ⟨rfl, by simp, id⟩) fun _ => .ended rfl rfl id rfl

theorem Flow.reinsert : Accounted (s.onServer (s.server.reinsert c)) := by
  unfold Server.reinsert
  split
  · exact h.accounted
  next hconn =>
    split
    · exact h.accounted
    · exact h.touch hconn rfl (fun _ => ⟨rfl, id, id⟩) fun _ => .of_queue rfl id id rfl

theorem Flow.reset : Accounted (s.onServer (s.server.reset c)) := by
  unfold Server.reset
  split
  · exact h.accounted
  next hconn =>
    exact h.touch hconn rfl (fun _ => ⟨rfl, id, fun _ => rfl⟩)
      fun _ => .of_queue rfl id (fun _ => rfl) rfl

end

/-- A `ClosePeer` carries nothing. -/
theorem sameOutbound_closePeer :
    b.SameOutbound { b with queue := b.queue.trySend (.closePeer device) } := by
  by_cases hroom : b.queue.queue.length < channelCapacity
  · have hpayload : (b.queue.trySend (.closePeer device)).queue.flatMap payloadOf =
        b.queue.queue.flatMap payloadOf := by
      rw [queue_trySend_of_room hroom, flatMap_append]
      exact append_nil _
    refine ⟨rfl, id, id, fun hrelayed f hf => ?_, by rw [hpayload], fun _ => hpayload⟩
    rw [queue_trySend_of_room hroom, mem_append, mem_singleton] at hf
    rcases hf with hf | rfl
    · exact hrelayed f hf
    · trivial
  · exact .of_queue rfl id id (dif_neg hroom)

section
variable (h : Flow s a b sent inside out)
include h

theorem Flow.timeOut : Accounted (s.onServer (s.server.timeOut device)) := by
  have hrouted : ∀ clients, Accounted (s.onServer { s.server with clients }) := fun _ =>
    ⟨a, b, sent, inside, out, h.onServer h.source h.sink ⟨rfl, id, id⟩ (.of_queue rfl id id rfl)⟩
  unfold Server.timeOut
  split
  · exact h.accounted
  · simp only
    split
    · exact hrouted _
    next hconn =>
      split
      · exact h.touch hconn rfl (fun _ => ⟨rfl, id, id⟩) fun _ => sameOutbound_closePeer
      · exact hrouted _

theorem Flow.writeTask_ne (hc : c ≠ s.sink) : Accounted (s.onServer (s.server.writeTask c)) := by
  unfold Server.writeTask
  split
  · exact h.accounted
  next conn hconn =>
    split
    · exact h.accounted
    · split
      · exact h.accounted
      · split
        · exact h.hangUp
        · exact h.touch hconn rfl (fun _ => ⟨rfl, id, id⟩) fun heq => absurd heq hc

/-- The first packet in the queue of the sink goes into its stream. -/
theorem Flow.writeTask_sink : Accounted (s.onServer (s.server.writeTask s.sink)) := by
  unfold Server.writeTask
  rw [h.sink]
  simp only
  split
  · exact h.accounted
  next frame queue hrecv =>
    split
    · exact h.accounted
    · split
      · exact h.hangUp
      · have hqueue : b.queue.queue = frame :: queue.queue := Mailbox.queue_of_recv hrecv
        have harrived : s.arrived (out ++ [frame]) queue.queue = s.arrived out b.queue.queue := by
          simp [Relaying.arrived, hqueue]
        have hsource : (s.server.setConn s.sink
            { b with queue, outbound := b.outbound ++ frame.encode }).conns s.source = some a := by
          rw [Server.conns_setConn_ne h.distinct, h.source]
        have hclosed : (s.onServer (s.server.setConn s.sink
            { b with queue, outbound := b.outbound ++ frame.encode })).closed = s.closed := by
          rw [h.closed_eq]
          simp [Relaying.closed, Relaying.onServer, Server.connected, hsource]
        refine ⟨a, _, sent, inside, out ++ [frame], ⟨h.distinct, hsource,
          Server.conns_setConn_self, h.channel, h.inbound, ?_, h.fits, ?_, h.received, ?_, ?_, ?_,
          ?_, ?_, ?_⟩⟩
        · simp [h.outbound]
        · intro f hf
          refine h.relayed f ?_
          rw [hqueue]
          simpa using hf
        · change s.arrived (out ++ [frame]) queue.queue <+: s.written
          rw [harrived]
          exact h.ordered
        · intro ha hb
          change s.arrived (out ++ [frame]) queue.queue ++ _ ++ _ <+: s.written
          rw [harrived]
          exact h.behind ha hb
        · intro ha hb hw
          change s.arrived (out ++ [frame]) queue.queue ++ _ ++ _ = s.written
          rw [harrived]
          exact h.whole ha hb hw
        · rw [hclosed]
          exact h.sending
        · rw [hclosed]
          exact h.receiving
        · rw [hclosed]
          exact h.eof

theorem Flow.writeTask : Accounted (s.onServer (s.server.writeTask c)) := by
  by_cases hc : c = s.sink
  · rw [hc]
    exact h.writeTask_sink
  · exact h.writeTask_ne hc

/-- A frame of another connection than the source. None of its packets is for the sink while that
is served. -/
theorem Flow.readTask_ne (hc : c ≠ s.source)
    (hguard : ∀ target payload, s.server.nextPacket c = some (target, payload) →
      b.running = true → s.server.clients target ≠ some s.sink) :
    Accounted (s.onServer (s.server.readTask c)) := by
  unfold readTask
  split
  · exact h.accounted
  rename_i conn hconn
  split
  · exact h.accounted
  split
  · exact h.accounted
  · exact h.hangUp
  rename_i buf rest hnext
  have hskip : Accounted (s.onServer (s.server.setConn c { conn with inbound := rest })) :=
    h.touch hconn rfl (fun heq => absurd heq hc) fun _ => .of_queue rfl id id rfl
  split
  next target payload _ hdecode =>
    have hpacket : s.server.nextPacket c = some (target, payload) := by
      simp only [nextPacket, hconn, hnext, hdecode]
    obtain ⟨a', b', sent', inside', out', h'⟩ := hskip
    refine h'.same (fun x hx => ⟨_, conns_forward hx, rfl, id, id⟩) fun x hx => ?_
    refine ⟨_, conns_forward hx, .of_queue rfl id id (if_neg ?_)⟩
    rintro ⟨hclient, hrun⟩
    refine hguard target payload hpacket ?_ hclient
    by_cases hsink : s.sink = c
    · rw [← hsink, h.sink] at hconn
      cases hconn
      rw [← hsink] at hx
      cases conns_setConn_self.symm.trans hx
      exact hrun
    · cases h.sink.symm.trans ((conns_setConn_ne hsink).symm.trans hx)
      exact hrun
  · exact hskip
  · exact hskip
  · exact h.touch hconn rfl (fun heq => absurd heq hc) fun _ => .ended rfl rfl id rfl

end

/-- The first packet of the source leaves its stream, and joins the queue of the sink if that is
served. -/
theorem Flow.relay {a' b' : Conn} (h : Flow s a b sent (payload :: inside) out)
    (device : DeviceId) (harun : a.running = true)
    (ha : server.conns s.source = some a') (hb : server.conns s.sink = some b')
    (hinbound : a'.inbound = inside.flatMap fun p => (Frame.sendPacket s.target p).encode)
    (hsource : a'.running = a.running ∧ a'.broken = a.broken)
    (hsink : b'.outbound = b.outbound ∧ b'.running = b.running ∧ b'.broken = b.broken)
    (hserved : b.running = true → b'.queue.queue = b.queue.queue ++ [.recvPacket device payload])
    (hgone : b.running = false → b'.queue = b.queue) :
    Flow (s.onServer server) a' b' sent inside out := by
  obtain ⟨houtbound, hbrun, hbbroken⟩ := hsink
  have hclosed : (s.onServer server).closed = s.closed := by
    rw [h.closed_eq]
    simp [Relaying.closed, Relaying.onServer, Server.connected, ha, hb, hsource.1, hsource.2, hbrun,
      hbbroken]
  have harrived : b.running = true → (s.onServer server).arrived out b'.queue.queue =
      s.arrived out b.queue.queue ++ payload := by
    intro hrun
    rw [hserved hrun]
    simp [Relaying.arrived, Relaying.onServer, Frame.payloadOf]
  have hmoved : b.running = true →
      (s.onServer server).arrived out b'.queue.queue ++ inside.flatten ++ sent.flatten =
        s.arrived out b.queue.queue ++ (payload :: inside).flatten ++ sent.flatten := by
    intro hrun
    rw [harrived hrun]
    simp
  refine ⟨h.distinct, ha, hb, h.channel, hinbound, houtbound.trans h.outbound,
    fun p hp => h.fits p (List.mem_cons_of_mem _ hp), fun f hf => ?_, h.received, ?_,
    fun ha' hb' => ?_, fun ha' hb' hw => ?_, ?_, ?_, ?_⟩
  · cases hrun : b.running with
    | false =>
      rw [hgone hrun] at hf
      exact h.relayed f hf
    | true =>
      rw [hserved hrun, ← List.append_assoc, List.mem_append, List.mem_singleton] at hf
      rcases hf with hf | rfl
      · exact h.relayed f hf
      · exact h.fits payload (by simp)
  · cases hrun : b.running with
    | false =>
      rw [hgone hrun]
      exact h.ordered
    | true =>
      have hbehind := h.behind harun hrun
      rw [← hmoved hrun, List.append_assoc] at hbehind
      exact (List.prefix_append _ _).trans hbehind
  · rw [hbrun] at hb'
    rw [hmoved hb']
    exact h.behind harun hb'
  · rw [hbrun] at hb'
    rw [hmoved hb']
    exact h.whole harun hb' hw
  · rw [hclosed]
    exact h.sending
  · rw [hclosed]
    exact h.receiving
  · rw [hclosed]
    exact h.eof

section
variable (h : Flow s a b sent inside out)
include h

/-- The next packet of the source goes to the sink, if that is served. -/
theorem Flow.readTask_source
    (hguard : ∀ target payload, s.server.nextPacket s.source = some (target, payload) →
      b.running = true → s.server.clients target = some s.sink ∧
        b.queue.queue.length < channelCapacity) :
    Accounted (s.onServer (s.server.readTask s.source)) := by
  have hnone : Accounted (s.onServer s.server) := h.accounted
  unfold readTask
  rw [h.source]
  simp only
  split
  · exact hnone
  rename_i hrunning
  have harun : a.running = true := by simpa using hrunning
  cases inside with
  | nil =>
    have hinbound : a.inbound = [] := h.inbound
    rw [hinbound]
    exact hnone
  | cons payload inside =>
    have hfits : Fits payload := h.fits payload (by simp)
    have hsize : (sendPacket s.target payload).fields.length + 1 ≤ maxFrameSize := by
      have := hfits.2
      simp only [fields, length_packetFields]
      omega
    have hnext := h.inbound
    rw [flatMap_cons] at hnext
    have hpacket : s.server.nextPacket s.source = some (s.target, payload) := by
      simp only [nextPacket, h.source, hnext, nextFrame_encode hsize, decode_encode hsize]
    simp only [hnext, nextFrame_encode hsize, decode_encode hsize]
    have hsink : (s.server.setConn s.source { a with inbound := inside.flatMap fun p =>
        (sendPacket s.target p).encode }).conns s.sink = some b := by
      rw [conns_setConn_ne h.distinct.symm, h.sink]
    refine ⟨_, _, sent, inside, out, h.relay a.device harun
      (conns_forward conns_setConn_self) (conns_forward hsink) rfl
      ⟨rfl, rfl⟩ ⟨rfl, rfl, rfl⟩ (fun hrun => ?_) fun hrun => ?_⟩
    · obtain ⟨hclient, hroom⟩ := hguard _ _ hpacket hrun
      rw [← queue_trySend_of_room hroom]
      exact congrArg queue (if_pos ⟨hclient, hrun⟩)
    · exact if_neg fun hboth => by
        rw [hrun] at hboth
        cases hboth.2

/-- Steps of the writing pipe. -/
theorem Flow.write {buf : Bytes} (hfits : Fits buf) : Accounted (s.write buf) := by
  unfold Relaying.write
  split
  next hopen =>
    simp only [Bool.and_eq_true, decide_eq_true_eq] at hopen
    obtain ⟨⟨-, hrunning⟩, hroom⟩ := hopen
    have hwhole : ∀ {x : Bytes}, x ++ inside.flatten ++ (sent ++ [buf]).flatten =
        x ++ inside.flatten ++ sent.flatten ++ buf := by simp
    refine ⟨a, b, sent ++ [buf], inside, out, ⟨h.distinct, h.source, h.sink, ?_, h.inbound,
      h.outbound, ?_, h.relayed, h.received, h.ordered.trans (prefix_append _ _), ?_, ?_,
      h.sending, h.receiving, h.eof⟩⟩
    · simp only [queue_trySend_of_room hroom, h.channel, map_append, map_cons, map_nil]
    · intro p hp
      rw [← append_assoc, mem_append, mem_singleton] at hp
      rcases hp with hp | rfl
      · exact h.fits p hp
      · exact hfits
    · intro ha hb
      have hall : s.arrived out b.queue.queue ++ inside.flatten ++ sent.flatten = s.written :=
        h.whole ha hb hrunning
      change s.arrived out b.queue.queue ++ _ ++ _ <+: s.written ++ buf
      rw [hwhole, hall]
    · intro ha hb hw
      rw [hwhole]
      exact congrArg (· ++ buf) (h.whole ha hb hrunning)
  · exact h.accounted

/-- A writer that has been closed sends what it still sends. -/
theorem Flow.closing {writer : SendHalf} (sent' : List Bytes)
    (hclosed : closed { s with writer } = true)
    (hchannel : writer.writeTx.queue = sent'.map fun p => (sendPacket s.target p).encode)
    (hsent : sent' <+: sent)
    (hrunning : writer.running = true → s.writer.running = true ∧ sent' = sent) :
    Accounted { s with writer } := by
  obtain ⟨lost, rfl⟩ := hsent
  refine ⟨a, b, sent', inside, out, ⟨h.distinct, h.source, h.sink, hchannel, h.inbound, h.outbound,
    fun p hp => h.fits p ?_, h.relayed, h.received, h.ordered, fun ha hb => ?_, fun ha hb hw => ?_,
    fun _ => hclosed, fun _ => hclosed, fun _ => hclosed⟩⟩
  · rw [← append_assoc]
    exact mem_append_left _ hp
  · refine List.IsPrefix.trans ?_ (h.behind ha hb)
    rw [flatten_append, ← append_assoc]
    exact prefix_append _ _
  · obtain ⟨hw', hsame⟩ := hrunning hw
    have hwhole := h.whole ha hb hw'
    rw [← hsame] at hwhole
    exact hwhole

theorem Flow.shutdown : Accounted s.shutdown :=
  h.closing sent (by simp [closed]) h.channel prefix_rfl fun hw => ⟨hw, rfl⟩

theorem Flow.drop : Accounted s.drop :=
  h.closing [] (by simp [closed]) rfl nil_prefix fun hw => by cases hw

theorem Flow.send : Accounted s.send := by
  unfold Relaying.send
  split
  · exact h.accounted
  rename_i hrunning
  split
  · split
    · exact h.accounted
    next hopen =>
      refine h.closing sent ?_ h.channel List.prefix_rfl fun hw => by cases hw
      simp [closed, hopen]
  next data writeTx hrecv =>
    have hqueue := Mailbox.queue_of_recv hrecv
    rw [h.channel] at hqueue
    obtain ⟨payload, sent, rfl, rfl, hsent⟩ := List.map_eq_cons_iff.mp hqueue
    split
    · have hsink : (s.server.arrive s.source (Frame.sendPacket s.target payload).encode).conns
          s.sink = some b := by
        rw [Server.conns_arrive_ne h.distinct.symm, h.sink]
      have hclosed : closed { s with
          server := s.server.arrive s.source (Frame.sendPacket s.target payload).encode
          writer := { s.writer with writeTx } } = s.closed := by
        rw [h.closed_eq]
        simp [closed, Server.connected, Server.conns_arrive_self h.source, hsink]
      have hmoved : ∀ x : Bytes, x ++ (inside ++ [payload]).flatten ++ sent.flatten =
          x ++ inside.flatten ++ (payload :: sent).flatten := fun x => by simp
      refine ⟨_, b, sent, inside ++ [payload], out, ⟨h.distinct,
        Server.conns_arrive_self h.source, hsink, hsent.symm, ?_, h.outbound, ?_, h.relayed,
        h.received, h.ordered, fun ha hb => ?_, fun ha hb hw => ?_, ?_, ?_, ?_⟩⟩
      · simp [h.inbound]
      · intro p hp
        exact h.fits p (by simpa using hp)
      · rw [hmoved]
        exact h.behind ha hb
      · rw [hmoved]
        exact h.whole ha hb hw
      · rw [hclosed]
        exact h.sending
      · rw [hclosed]
        exact h.receiving
      · rw [hclosed]
        exact h.eof
    next hconnected =>
      refine h.closing [] ?_ rfl List.nil_prefix fun hw => by cases hw
      simp [closed, hconnected]

/-- A step of the reading pipe that moves what it holds, or stops once it has been closed. -/
theorem Flow.reading {returned : Bytes} {eof : Bool}
    (hfront : returned ++ reader.readBuffer ++ reader.readRx.queue.flatten =
      s.returned ++ s.reader.readBuffer ++ s.reader.readRx.queue.flatten)
    (hreceived : ∀ p ∈ reader.readRx.queue, p ≠ [])
    (hrunning : reader.running = false → s.closed = true) (heof : eof = true → s.closed = true) :
    Accounted { s with reader, returned, eof } := by
  have harrived : arrived { s with reader, returned, eof } out b.queue.queue =
      s.arrived out b.queue.queue := by
    simp only [arrived, hfront]
  refine ⟨a, b, sent, inside, out, ⟨h.distinct, h.source, h.sink, h.channel, h.inbound, h.outbound,
    h.fits, h.relayed, hreceived, ?_, fun ha hb => ?_, fun ha hb hw => ?_, h.sending, hrunning,
    heof⟩⟩
  · rw [harrived]
    exact h.ordered
  · rw [harrived]
    exact h.behind ha hb
  · rw [harrived]
    exact h.whole ha hb hw

theorem Flow.endOfStream : Accounted s.endOfStream := by
  unfold Relaying.endOfStream
  split
  · exact h.accounted
  next hconnected =>
    refine h.reading rfl h.received (fun _ => ?_) h.eof
    simp [closed, hconnected]

/-- A read returns nothing only if there is nothing more to come. -/
theorem Flow.read {n : Nat} : Accounted (s.read n) := by
  unfold Relaying.read
  split
  · refine h.reading ?_ h.received h.receiving h.eof
    rw [append_assoc s.returned, take_append_drop]
  next hbuffer =>
    have hbuffer : s.reader.readBuffer = [] := by simpa using hbuffer
    split
    next bytes readRx hrecv =>
      have hqueue := queue_of_recv hrecv
      have hbytes : bytes ≠ [] := h.received bytes (by simp [hqueue])
      refine h.reading ?_ (fun p hp => h.received p (by simp [hqueue, hp])) h.receiving ?_
      · rw [append_assoc s.returned, take_append_drop, hbuffer, hqueue, append_nil,
          flatten_cons, append_assoc]
      · intro heof
        refine h.eof ?_
        simpa [hbytes] using heof
    · split
      · exact h.accounted
      next hrunning =>
        exact h.reading rfl h.received h.receiving fun _ => h.receiving (by simpa using hrunning)

end

theorem size_of_isRelayed (h : f.IsRelayed) : f.fields.length + 1 ≤ maxFrameSize := by
  cases f with
  | recvPacket sender payload =>
    have hsize : payload.length + 37 ≤ maxFrameSize := h.2
    simp only [fields, length_packetFields]
    omega
  | closePeer target =>
    simp only [fields, target.size, maxFrameSize]
    omega
  | clientInfo | serverInfo | sendPacket | keepAlive => exact h.elim

/-- The first frame leaves the stream to the sink, and what it carries joins what is received. -/
theorem Flow.take {frame : Frame} (h : Flow s a b sent inside (frame :: out))
    (hrunning : reader.running = s.reader.running)
    (hbuffer : reader.readBuffer = s.reader.readBuffer)
    (hreceived : ∀ p ∈ reader.readRx.queue, p ≠ [])
    (hrx : reader.readRx.queue.flatten = s.reader.readRx.queue.flatten ++ frame.payloadOf) :
    Accounted { s with
      server := s.server.setConn s.sink { b with outbound := out.flatMap Frame.encode }
      reader } := by
  have hsource : (s.server.setConn s.sink { b with outbound := out.flatMap Frame.encode }).conns
      s.source = some a := by
    rw [Server.conns_setConn_ne h.distinct, h.source]
  have hclosed : closed { s with
      server := s.server.setConn s.sink { b with outbound := out.flatMap Frame.encode }
      reader } = s.closed := by
    rw [h.closed_eq]
    simp [closed, Server.connected, hsource]
  have harrived : arrived { s with
      server := s.server.setConn s.sink { b with outbound := out.flatMap Frame.encode }
      reader } out b.queue.queue = s.arrived (frame :: out) b.queue.queue := by
    simp [arrived, hbuffer, hrx]
  refine ⟨a, _, sent, inside, out, ⟨h.distinct, hsource, Server.conns_setConn_self, h.channel,
    h.inbound, rfl, h.fits, fun f hf => h.relayed f (List.mem_cons_of_mem _ hf), hreceived, ?_,
    fun ha hb => ?_, fun ha hb hw => ?_, ?_, ?_, ?_⟩⟩
  · rw [harrived]
    exact h.ordered
  · rw [harrived]
    exact h.behind ha hb
  · rw [harrived]
    exact h.whole ha hb hw
  · rw [hclosed]
    exact h.sending
  · rw [hclosed, hrunning]
    exact h.receiving
  · rw [hclosed]
    exact h.eof

theorem Flow.receive (h : Flow s a b sent inside out)
    (hroom : s.reader.readRx.queue.length < channelCapacity) : Accounted s.receive := by
  unfold Relaying.receive
  rw [h.sink]
  simp only
  split
  · exact h.accounted
  cases out with
  | nil =>
    have houtbound : b.outbound = [] := h.outbound
    rw [houtbound]
    exact h.accounted
  | cons frame out =>
    have hrelayed : frame.IsRelayed := h.relayed frame (by simp)
    have hsize := size_of_isRelayed hrelayed
    have hnext := h.outbound
    rw [flatMap_cons] at hnext
    simp only [hnext, nextFrame_encode hsize, decode_encode hsize]
    cases frame with
    | recvPacket sender payload =>
      simp only [Relaying.onServer, hroom, if_true]
      refine h.take rfl rfl (fun p hp => ?_) ?_
      · rw [Mailbox.queue_trySend_of_room hroom, List.mem_append, List.mem_singleton] at hp
        rcases hp with hp | rfl
        · exact h.received p hp
        · exact hrelayed.1
      · simp [queue_trySend_of_room hroom, payloadOf]
    | closePeer target => exact h.take rfl rfl h.received (by simp [payloadOf])
    | clientInfo | serverInfo | sendPacket | keepAlive => exact hrelayed.elim

/-- Every step that meets the condition keeps account of what has been written. -/
theorem accounted_step {e : RelayEvent} {s' : Relaying} (hg : RelayGuard s e)
    (hs : RelayStep s e s') (h : Accounted s) : Accounted s' := by
  obtain ⟨a, b, sent, inside, out, h⟩ := h
  cases hs
  cases e with
  | write buf => exact h.write hg
  | shutdown => exact h.shutdown
  | drop => exact h.drop
  | send => exact h.send
  | accept c device => exact h.accept
  | arrive c bytes =>
    by_cases hc : c = s.source
    · have hsame : s.apply (.arrive c bytes) = s := if_pos hc
      rw [hsame]
      exact h.accounted
    · have harrives : s.apply (.arrive c bytes) = s.onServer (s.server.arrive c bytes) := if_neg hc
      rw [harrives]
      exact h.arrive hc
  | readTask c =>
    by_cases hc : c = s.source
    · subst hc
      exact h.readTask_source fun target payload hpacket hrun => by
        simpa using hg target payload b hpacket h.sink hrun
    · exact h.readTask_ne hc fun target payload hpacket hrun => by
        simpa [hc] using hg target payload b hpacket h.sink hrun
  | writeTask c => exact h.writeTask
  | hangUp c => exact h.hangUp
  | reinsert c => exact h.reinsert
  | reset c => exact h.reset
  | timeOut device => exact h.timeOut
  | receive => exact h.receive hg
  | endOfStream => exact h.endOfStream
  | read n => exact h.read

/-- In every run of two pipes and their server whose steps meet the condition, the bytes read are
a prefix of the bytes written, the end of file is read only after a close, and nothing is lost. -/
theorem guarded_pipe_reliable {s₀ : Relaying} (h₀ : s₀.IsFresh)
    (hrun : Reach RelayStep RelayGuard s₀ s) : Reliable s := by
  have hfresh : Accounted s₀ := by
    obtain ⟨a, b, h⟩ := h₀.flow
    exact ⟨a, b, [], [], [], h⟩
  obtain ⟨a, b, sent, inside, out, h⟩ := hrun.invariant hfresh fun hg hs h => accounted_step hg hs h
  exact h.reliable

end

/-- A device whose ID repeats one byte. -/
def deviceOf (n : UInt8) : DeviceId := ⟨replicate 32 n, length_replicate⟩

/-- A pipe of device 1 to device 2, and a third client. -/
def freshPipes : Relaying where
  target := deviceOf 2
  source := 1
  sink := 2
  server := {
    conns := fun c => if c = 1 ∨ c = 2 ∨ c = 3 then
      some ⟨deviceOf (UInt8.ofNat c), [], .empty, [], true, false, none⟩ else none
    clients := fun device => [1, 2, 3].find? fun c => deviceOf (UInt8.ofNat c) = device }
  writer := ⟨.empty, true, true⟩
  reader := ⟨true, .empty, []⟩
  written := []
  returned := []
  eof := false

theorem freshPipes_isFresh : freshPipes.IsFresh where
  distinct := by decide
  source := ⟨_, rfl, rfl, rfl, rfl⟩
  sink := ⟨_, rfl, rfl, rfl, rfl, rfl⟩
  writer := rfl
  reader := rfl
  written := rfl
  returned := rfl
  eof := rfl

/-- A byte that is written is read. -/
theorem guarded_pipe_reliable_byte : ∃ s, Reach RelayStep RelayGuard freshPipes s ∧
    s.written = [7] ∧ s.returned = [7] ∧ Reliable s := by
  have hforwards : RelayGuard ((freshPipes.apply (.write [7])).apply .send) (.readTask 1) := by
    intro target payload conn hpacket hconn _
    have hnext : (freshPipes.write [7]).send.server.nextPacket 1 = some (deviceOf 2, [7]) := by
      decide +kernel
    have hroom : ((freshPipes.write [7]).send.server.conns 2).all
        (fun conn => conn.queue.queue.length < channelCapacity) = true := by decide +kernel
    obtain ⟨rfl, rfl⟩ := Prod.mk.inj (Option.some.inj (hnext.symm.trans hpacket))
    have hconn : (freshPipes.write [7]).send.server.conns 2 = some conn := hconn
    rw [hconn] at hroom
    exact ⟨by decide +kernel, by simpa using hroom⟩
  have hrun : Reach RelayStep RelayGuard freshPipes
      ([.write [7], .send, .readTask 1, .writeTask 2, .receive, .read 4].foldl apply
        freshPipes) := by
    have hwrite : RelayGuard freshPipes (.write [7]) := ⟨by decide, by decide⟩
    have hreceive : ∀ s : Relaying, s.reader.readRx.queue = [] → RelayGuard s .receive := by
      intro s hs
      change s.reader.readRx.queue.length < channelCapacity
      rw [hs]
      decide
    have hnext : ∀ {s : Relaying} e, RelayGuard s e → Reach RelayStep RelayGuard freshPipes s →
        Reach RelayStep RelayGuard freshPipes (s.apply e) := fun e hg h => h.next .step hg
    have hsent := hnext .send trivial (hnext (.write [7]) hwrite .refl)
    have hwritten := hnext (.writeTask 2) trivial (hnext (.readTask 1) hforwards hsent)
    exact hnext (.read 4) trivial (hnext .receive (hreceive _ (by decide +kernel)) hwritten)
  exact ⟨_, hrun, by decide +kernel, by decide +kernel,
    guarded_pipe_reliable freshPipes_isFresh hrun⟩

/-- An empty write is read as the end of file; a packet of another client is read among the bytes
of the pipe; and what is written to a peer that has timed out is lost. -/
theorem pipe_not_reliable : ∃ empty foreign lost,
    (Reach RelayStep (fun _ _ => True) freshPipes empty ∧ empty.eof = true ∧
      empty.closed = false ∧ ¬ Reliable empty) ∧
    (Reach RelayStep (fun _ _ => True) freshPipes foreign ∧ foreign.returned = [9] ∧
      foreign.written = [] ∧ ¬ Reliable foreign) ∧
    (Reach RelayStep (fun _ _ => True) freshPipes lost ∧ lost.written = [7] ∧
      lost.returned = [] ∧ lost.closed = false ∧ ¬ Reliable lost) := by
  refine ⟨_, _, _, ⟨.foldl (fun _ _ => .step)
        [.write [], .send, .readTask 1, .writeTask 2, .receive, .read 4],
      by decide +kernel, by decide +kernel, fun h => ?_⟩,
    ⟨.foldl (fun _ _ => .step) [.arrive 3 (sendPacket (deviceOf 2) [9]).encode, .readTask 3,
      .writeTask 2, .receive, .read 4], by decide +kernel, by decide +kernel, fun h => ?_⟩,
    ⟨.foldl (fun _ _ => .step)
        [.timeOut (deviceOf 2), .write [7], .send, .readTask 1, .writeTask 2, .receive],
      by decide +kernel, by decide +kernel, by decide +kernel, fun h => ?_⟩⟩
  · have hclosed := h.endOfFile (by decide +kernel)
    revert hclosed
    decide +kernel
  · have hordered := h.ordered
    revert hordered
    decide +kernel
  · have hcomplete := h.complete (by decide +kernel) ⟨by decide +kernel, fun conn hconn => ?_,
      fun conn hconn => ?_, by decide +kernel, by decide +kernel⟩
    · revert hcomplete
      decide +kernel
    · revert conn
      decide +kernel
    · revert conn
      decide +kernel

end Syncthing.Derp
