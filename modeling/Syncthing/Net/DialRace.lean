import Syncthing.Net.ConnectionManager
import Syncthing.Lib.Transition

/-! Each of two devices dials the other once. At each end one task handles the connection it dials
(`spawn_connect_task`) and one the connection it accepts (`handle_incoming`). Their steps and the
ends of sessions come in any order. A step holds a lock of the manager at most once, except that
`act` is one step. -/
namespace Syncthing

inductive Device where
  | smaller
  | larger
  deriving DecidableEq

def Device.other : Device → Device
  | smaller => larger
  | larger => smaller

/-- The ids of two different devices, in order. -/
structure DevicePair where
  smaller : DeviceId
  larger : DeviceId
  lt : smaller.bytes < larger.bytes

def DevicePair.id (ids : DevicePair) : Device → DeviceId
  | .smaller => ids.smaller
  | .larger => ids.larger

/-- The device that dialed the connection which `p` has as one of the given type. It names the
connection. -/
def dialer (p : Device) : ConnectionType → Device
  | .outgoing => p
  | .incoming => p.other

/-- The type a connection has at `p`. -/
def typeAt (p c : Device) : ConnectionType := if c = p then .outgoing else .incoming

/-- The connection of the given type as `p` has it. -/
def endAt (p : Device) (t : ConnectionType) : Connection Device := ⟨dialer p t, t⟩

/-- How a task has ended. -/
inductive Outcome where
  /-- the handshake lost the race -/
  | refused
  /-- the dial failed -/
  | failed
  /-- the entry of the attempt was dropped during the dial -/
  | cancelled
  /-- the connection was closed on registration -/
  | rejected
  | registered
  deriving DecidableEq

inductive Stage where
  /-- not asked to dial yet, or nothing to accept yet -/
  | waiting
  /-- connected before it dialed -/
  | skipped
  /-- the attempt is noted, or TLS of an incoming connection is complete -/
  | opened
  /-- in `begin_handshake`, what was connected is replaced -/
  | cleared
  /-- in `begin_handshake`, the race is not lost -/
  | contended
  | begun
  /-- TLS of the dialed connection is complete -/
  | connected
  /-- the Hello messages are exchanged -/
  | greeted
  | decided (action : RegisterAction Device)
  /-- over but for the guard of the handshake -/
  | leaving (outcome : Outcome)
  | ended (outcome : Outcome)
  deriving DecidableEq

structure Race where
  manager : Device → ConnectionManager Device
  stage : Device → ConnectionType → Stage

namespace Stage

/-- The connection has been registered, and a session was started on it. -/
@[simp] def Registered (x : Stage) : Prop := x = leaving .registered ∨ x = ended .registered

/-- The task has ended, or is about to, without a registered connection. -/
@[simp] def Dropped : Stage → Prop
  | skipped => True
  | leaving outcome | ended outcome => outcome ≠ .registered
  | _ => False

@[simp] def Ended : Stage → Prop
  | skipped | ended _ => True
  | _ => False

/-- The accepting task has answered the Hello of the dialer. -/
def Answered : Stage → Prop
  | greeted | decided _ => True
  | leaving outcome | ended outcome => outcome = .registered ∨ outcome = .rejected
  | _ => False

/-- The dial is under way. When its task is cancelled the connect itself goes on. -/
def Dialing (x : Stage) : Prop := x = begun ∨ x = leaving .cancelled ∨ x = ended .cancelled

/-- The stage of a dial after TLS is complete. -/
def linked : Stage → Stage
  | begun => connected
  | x => x

end Stage

namespace Race

def start (ids : DevicePair) : Race where
  manager := fun p => .new (ids.id p)
  stage := fun _ _ => .waiting

variable (ids : DevicePair) (s : Race) (p : Device) (t : ConnectionType)

def setStage (x : Stage) : Race :=
  { s with stage := Function.update s.stage p (Function.update (s.stage p) t x) }

def setManager (m : ConnectionManager Device) : Race :=
  { s with manager := Function.update s.manager p m }

/-- What `p` has registered for the other device. -/
def pool : Option (List (Connection Device)) := (s.manager p).connections (ids.id p.other)

/-- One end has closed the connection, or the other end has given it up. -/
def Gone : Prop :=
  (∃ q, (s.manager q).closed (dialer p t) = true) ∨ (s.stage p.other t.other).Dropped

inductive Action where
  | ask (p : Device)
  | connect (p : Device)
  | clear (p : Device) (t : ConnectionType)
  | contend (p : Device) (t : ConnectionType)
  | enter (p : Device) (t : ConnectionType)
  | greet (p : Device) (t : ConnectionType)
  | fail (p : Device)
  | cancel (p : Device)
  | decide (p : Device) (t : ConnectionType)
  | register (p : Device) (t : ConnectionType)
  | leave (p : Device) (t : ConnectionType)
  | sessionEnd (p : Device) (t : ConnectionType)

inductive Step : Race → Action → Race → Prop where
  /-- `connect_to_with_relay` finds nothing to do. -/
  | skip {s : Race} {p : Device} (h : s.stage p .outgoing = .waiting)
      (hm : (s.manager p).startDial (ids.id p.other) = none) :
      Step s (.ask p) (s.setStage p .outgoing .skipped)
  | note {s : Race} {p : Device} {m : ConnectionManager Device}
      (h : s.stage p .outgoing = .waiting)
      (hm : (s.manager p).startDial (ids.id p.other) = some m) :
      Step s (.ask p) ((s.setManager p m).setStage p .outgoing .opened)
  | clear {s : Race} {p : Device} {t : ConnectionType} (h : s.stage p t = .opened) :
      Step s (.clear p t)
        ((s.setManager p ((s.manager p).replaceConnected (ids.id p.other))).setStage p t .cleared)
  | contend {s : Race} {p : Device} {t : ConnectionType} {m : ConnectionManager Device}
      (h : s.stage p t = .cleared) (hm : (s.manager p).contend (ids.id p.other) t = .ok m) :
      Step s (.contend p t) ((s.setManager p m).setStage p t .contended)
  /-- An incoming connection that loses is closed before the Hello. -/
  | refuseIncoming {s : Race} {p : Device} {e : NetError} (h : s.stage p .incoming = .cleared)
      (hm : (s.manager p).contend (ids.id p.other) .incoming = .error e) :
      Step s (.contend p .incoming) (s.setStage p .incoming (.ended .refused))
  /-- A dial that loses is not made. -/
  | refuseOutgoing {s : Race} {p : Device} {e : NetError} (h : s.stage p .outgoing = .cleared)
      (hm : (s.manager p).contend (ids.id p.other) .outgoing = .error e) :
      Step s (.contend p .outgoing)
        ((s.setManager p ((s.manager p).clearPending (ids.id p.other))).setStage p .outgoing
          (.ended .refused))
  | enter {s : Race} {p : Device} {t : ConnectionType} (h : s.stage p t = .contended) :
      Step s (.enter p t)
        ((s.setManager p ((s.manager p).enterHandshake (ids.id p.other) t)).setStage p t .begun)
  /-- TCP and TLS succeed. The other device gets an incoming connection. -/
  | connect {s : Race} {p : Device} (h : (s.stage p .outgoing).Dialing)
      (hin : s.stage p.other .incoming = .waiting) : Step s (.connect p)
        ((s.setStage p .outgoing (s.stage p .outgoing).linked).setStage p.other .incoming .opened)
  /-- The dialer has sent its Hello right after TLS. -/
  | answer {s : Race} {p : Device} (h : s.stage p .incoming = .begun) :
      Step s (.greet p .incoming) (s.setStage p .incoming .greeted)
  | greeted {s : Race} {p : Device} (h : s.stage p .outgoing = .connected)
      (hin : (s.stage p.other .incoming).Answered) :
      Step s (.greet p .outgoing) (s.setStage p .outgoing .greeted)
  /-- The other end has closed the connection instead of answering the Hello. -/
  | fail {s : Race} {p : Device} (h : s.stage p .outgoing = .connected)
      (hin : s.stage p.other .incoming = .ended .refused) : Step s (.fail p)
        ((s.setManager p ((s.manager p).clearPending (ids.id p.other))).setStage p .outgoing
          (.leaving .failed))
  | cancel {s : Race} {p : Device}
      (h : s.stage p .outgoing = .begun ∨ s.stage p .outgoing = .connected)
      (hpending : (s.manager p).pendingConnections (ids.id p.other) = false) :
      Step s (.cancel p) (s.setStage p .outgoing (.leaving .cancelled))
  | decide {s : Race} {p : Device} {t : ConnectionType} (h : s.stage p t = .greeted) :
      Step s (.decide p t)
        (s.setStage p t (.decided ((s.manager p).registerAction (ids.id p.other) (endAt p t))))
  | register {s : Race} {p : Device} {t : ConnectionType} {action : RegisterAction Device}
      (h : s.stage p t = .decided action) : Step s (.register p t)
        ((s.setManager p ((s.manager p).act (ids.id p.other) (endAt p t) action)).setStage p t
          (.leaving (if action = .rejectNew then .rejected else .registered)))
  | leave {s : Race} {p : Device} {t : ConnectionType} {outcome : Outcome}
      (h : s.stage p t = .leaving outcome) : Step s (.leave p t)
        ((s.setManager p ((s.manager p).endHandshake (ids.id p.other))).setStage p t
          (.ended outcome))
  /-- The session on a connection that is gone ends, and with it all connections to the device
  (`daemon_runner.rs`). -/
  | sessionEnd {s : Race} {p : Device} {t : ConnectionType} (h : (s.stage p t).Registered)
      (hgone : s.Gone p t) : Step s (.sessionEnd p t)
        (s.setManager p ((s.manager p).disconnect (ids.id p.other)))

/-- All tasks have run: both have dialed, and what was to be accepted is handled. -/
def Finished : Prop := ∀ p, (s.stage p .outgoing).Ended ∧
    ((s.stage p .incoming).Ended ∨ s.stage p .incoming = .waiting)

/-- The type at `p` of the connection that the rule keeps, the one the larger device dials. -/
def keptAt : ConnectionType := typeAt p .larger

/-- What must not happen: a step for the connection that the smaller device dials, at an end which
has registered the other one, and the end of the dial of the larger device. -/
def Orderly : Action → Prop
  -- `begin_handshake` would replace the connection that is kept
  | .clear p t => t = keptAt p ∨ (s.manager p).isConnected (ids.id p.other) = false
  -- an action decided before would drop it
  | .register p t => t = keptAt p ∨
      s.stage p t = .decided ((s.manager p).registerAction (ids.id p.other) (endAt p t))
  -- the session of the other connection would end it
  | .sessionEnd p t => t = keptAt p ∨ s.pool ids p ≠ some [endAt p (keptAt p)]
  -- the registration of the other connection would cancel the dial
  | .cancel p => p = .smaller
  | _ => True

end Race
end Syncthing
