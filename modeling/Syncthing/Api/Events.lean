import Mathlib.Algebra.Group.Nat.Defs
import Syncthing.Lib.Broadcast

/-! `syncthing-api/src/events.rs` and the poll handler of `handlers.rs`. Publishers and one client
that polls take their turns between the calls of a publisher and the waits of the handler. -/
namespace Syncthing

open Broadcast

inductive EventType where
  | folderSummary
  | itemFinished
  | deviceConnected
  | deviceDisconnected
  | localIndexUpdated
  | remoteIndexUpdated
  deriving DecidableEq

def EventType.name : EventType → String
  | folderSummary => "FolderSummary"
  | itemFinished => "ItemFinished"
  | deviceConnected => "DeviceConnected"
  | deviceDisconnected => "DeviceDisconnected"
  | localIndexUpdated => "LocalIndexUpdated"
  | remoteIndexUpdated => "RemoteIndexUpdated"

structure Event (δ : Type) where
  type : EventType
  data : δ
  deriving DecidableEq

structure EventMessage (δ : Type) where
  id : Nat
  eventType : String
  time : Nat
  data : δ
  deriving DecidableEq

section code
variable {δ : Type}

/-- Every conversion takes an id from the global counter, a `u64`. -/
def convertEventToMessage (counter time : Nat) (event : Event δ) : EventMessage δ :=
  ⟨counter, event.type.name, time, event.data⟩

def fetchAdd (counter : Nat) : Nat := (counter + 1) % 2 ^ 64

/-- Ring buffer for historical events. -/
structure EventBuffer (δ : Type) where
  capacity : Nat
  inner : List (EventMessage δ)

namespace EventBuffer

variable (b : EventBuffer δ)

/-- Pushes an event into the buffer, evicting the oldest if at capacity. -/
def push (msg : EventMessage δ) : EventBuffer δ :=
  { b with inner := (if b.inner.length ≥ b.capacity then b.inner.drop 1 else b.inner) ++ [msg] }

def since (sinceId : Nat) : List (EventMessage δ) := b.inner.filter fun m => sinceId < m.id

end EventBuffer

/-- The types a query asks for; all of them if it names none. -/
def matchesFilter (filter : Option (List String)) (msg : EventMessage δ) : Bool :=
  match filter with
  | none => true
  | some types => types.contains msg.eventType

/-- The limit of a query, one by default. -/
def pollLimit (limit : Option Nat) : Nat := min (max (limit.getD 1) 1) 1000

/-- What the handler finds in the buffer. -/
def EventBuffer.collect (b : EventBuffer δ) (filter : Option (List String)) (since : Nat) :
    List (EventMessage δ) := (b.since since).filter (matchesFilter filter)

end code

/-- A publisher between its calls. Its event has been numbered, or pushed as well. -/
inductive Publishing (δ : Type) where
  | numbered (event : Event δ) (msg : EventMessage δ)
  | pushed (event : Event δ)

/-- The handler of one poll: it found nothing in the buffer, or it waits for events from its place
in the channel on. -/
inductive Handler (δ : Type) where
  | idle
  | foundNothing (limit : Nat)
  | waiting (limit next : Nat) (collected : List (EventMessage δ))

/-- The bus, its publishers and one client. The data of an event is its number in the order of the
publications, so that it tells the event from all others. -/
structure Polling where
  counter : Nat
  buffer : EventBuffer Nat
  channel : Channel (Event Nat)
  publishing : List (Publishing Nat)
  published : Nat
  filter : Option (List String)
  handler : Handler Nat
  /-- The largest id of the previous answer. -/
  since : Nat
  answers : List (List (EventMessage Nat))
  /-- The events that were in the buffer when the client polled. -/
  seen : List Nat

namespace Polling

variable (s : Polling)

/-- `publish` begins: the event gets its id. -/
def number (type : EventType) (time : Nat) : Polling :=
  let event : Event Nat := ⟨type, s.published⟩
  { s with
    counter := fetchAdd s.counter
    published := s.published + 1
    publishing := s.publishing ++ [.numbered event (convertEventToMessage s.counter time event)] }

def push (msg : EventMessage Nat) (publishing : List (Publishing Nat)) : Polling :=
  { s with buffer := s.buffer.push msg, publishing }

def send (event : Event Nat) (publishing : List (Publishing Nat)) : Polling :=
  { s with channel := s.channel.send event, publishing }

/-- A message for a WebSocket takes an id as well. -/
def numberElsewhere : Polling := { s with counter := fetchAdd s.counter }

/-- The client gets an answer. -/
def answer (events : List (EventMessage Nat)) : Polling :=
  { s with
    handler := .idle
    since := (events.map (·.id)).foldl max s.since
    answers := s.answers ++ [events] }

/-- The types the client asks for. -/
def wants (msg : EventMessage Nat) : Bool := matchesFilter s.filter msg

/-- The client polls, and gets what is in the buffer, if anything is. -/
def poll (limit : Option Nat) : Polling :=
  let found := s.buffer.collect s.filter s.since
  let s := { s with seen := s.seen ++ (s.buffer.inner.filter s.wants).map EventMessage.data }
  if found.isEmpty then { s with handler := .foundNothing (pollLimit limit) }
  else s.answer (found.take (pollLimit limit))

def subscribe (limit : Nat) : Polling :=
  { s with handler := .waiting limit s.channel.sent.length [] }

/-- The handler receives an event and numbers it anew. -/
def receive (limit next : Nat) (collected : List (EventMessage Nat)) (event : Event Nat)
    (time : Nat) : Polling :=
  let msg := convertEventToMessage s.counter time event
  let kept := if msg.id ≤ s.since then collected
    else if s.wants msg then collected ++ [msg] else collected
  { s with counter := fetchAdd s.counter, handler := .waiting limit next kept }

end Polling

inductive PollEvent where
  | number (type : EventType) (time : Nat)
  | push (msg : EventMessage Nat)
  | send
  | numberElsewhere
  | poll (limit : Option Nat)
  | subscribe
  | receive (event : Event Nat) (time : Nat)
  | stop

/-- One step of a publisher or of the handler. A wait may end at any time. -/
inductive PollStep : Polling → PollEvent → Polling → Prop where
  | number {s type time} : PollStep s (.number type time) (s.number type time)
  | push {s before event msg later} (hs : s.publishing = before ++ .numbered event msg :: later) :
    PollStep s (.push msg) (s.push msg (before ++ .pushed event :: later))
  | send {s before event later} (hs : s.publishing = before ++ .pushed event :: later) :
    PollStep s .send (s.send event (before ++ later))
  | numberElsewhere {s} : PollStep s .numberElsewhere s.numberElsewhere
  | poll {s limit} (hs : s.handler = .idle) : PollStep s (.poll limit) (s.poll limit)
  | subscribe {s limit} (hs : s.handler = .foundNothing limit) :
    PollStep s .subscribe (s.subscribe limit)
  | receive {s limit next collected event next' time}
    (hs : s.handler = .waiting limit next collected) (hlimit : collected.length < limit)
    (hrecv : s.channel.recv next = (some (.value event), next')) :
    PollStep s (.receive event time) (s.receive limit next' collected event time)
  | stop {s limit next collected} (hs : s.handler = .waiting limit next collected) :
    PollStep s .stop (s.answer collected)

end Syncthing
