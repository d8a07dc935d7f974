import Syncthing.Lib.Transition
import Syncthing.Net.ConnectionManager

/-! Calls of `begin_handshake` for one device and the guards they return. A call decides the race
under the lock of the table and enters its record under another one. A guard names its record by the
device only. -/
namespace Syncthing

open Transition

structure HandshakeGuards (κ : Type) where
  manager : ConnectionManager κ
  /-- The calls that have won the race and are to enter their record. -/
  calls : List ConnectionType
  /-- The handshakes that have entered, which number their guards. -/
  entered : Nat
  alive : Nat → Bool

inductive GuardEvent where
  | contend (connType : ConnectionType)
  | enter (connType : ConnectionType)
  | drop (guard : Nat)
  /-- what the manager does about connections and dials -/
  | other

namespace HandshakeGuards

variable {κ : Type} [DecidableEq κ] {device localId : DeviceId} {s t : HandshakeGuards κ}
  {e : GuardEvent} {run : List (HandshakeGuards κ × GuardEvent)}

def start (localId : DeviceId) : HandshakeGuards κ := ⟨.new localId, [], 0, fun _ => false⟩

def enter (s : HandshakeGuards κ) (device : DeviceId) (connType : ConnectionType) :
    HandshakeGuards κ where
  manager := s.manager.enterHandshake device connType
  calls := s.calls.erase connType
  entered := s.entered + 1
  alive := Function.update s.alive (s.entered + 1) true

def drop (s : HandshakeGuards κ) (device : DeviceId) (guard : Nat) : HandshakeGuards κ :=
  { s with
    manager := s.manager.endHandshake device
    alive := Function.update s.alive guard false }

inductive Step (device : DeviceId) : HandshakeGuards κ → GuardEvent → HandshakeGuards κ → Prop where
  | refused (connType) {s error}
      (h : (s.manager.replaceConnected device).contend device connType = .error error) :
      Step device s (.contend connType) { s with manager := s.manager.replaceConnected device }
  | contend (connType) {s m}
      (h : (s.manager.replaceConnected device).contend device connType = .ok m) :
      Step device s (.contend connType) { s with manager := m, calls := connType :: s.calls }
  | enter (connType) {s} (h : connType ∈ s.calls) :
      Step device s (.enter connType) (s.enter device connType)
  | drop (guard) {s} (h : s.alive guard = true) : Step device s (.drop guard) (s.drop device guard)
  | other {s m} (hid : m.localDeviceId = s.manager.localDeviceId)
      (h : m.pendingHandshakes device = s.manager.pendingHandshakes device) :
      Step device s .other { s with manager := m }

/-- While no call is about to enter its record, there is one exactly if the guard of the last
handshake that entered is alive. -/
def Owned (device : DeviceId) (s : HandshakeGuards κ) : Prop :=
  s.calls = [] → ((s.manager.pendingHandshakes device).isSome = true ↔ s.alive s.entered = true)

/-- No guard but that of the last handshake is dropped while that one is alive, unless another one
is about to enter. -/
def LastFirst (s : HandshakeGuards κ) : GuardEvent → Prop
  | .drop guard => s.calls = [] → s.alive s.entered = true → guard = s.entered
  | _ => True

theorem pendingHandshakes_replaceConnected (m : ConnectionManager κ) :
    (m.replaceConnected device).pendingHandshakes = m.pendingHandshakes := by
  unfold ConnectionManager.replaceConnected
  split <;> rfl

theorem Owned.step (hs : Step device s e t) (h : s.Owned device) (he : s.LastFirst e) :
    t.Owned device := by
  intro hcalls
  cases hs with
  | refused => simpa only [pendingHandshakes_replaceConnected] using h hcalls
  | contend => cases hcalls
  | enter => simp [HandshakeGuards.enter]
  | drop guard =>
    have hlast := he hcalls
    by_cases hg : s.entered = guard
    · simp [HandshakeGuards.drop, hg]
    · have hdead : s.alive s.entered = false := by simpa [Ne.symm hg] using hlast
      simp [HandshakeGuards.drop, hg, hdead]
  | other _ hm => simpa only [hm] using h hcalls

theorem not_owned_step (hs : Step device s e t) (he : ¬ s.LastFirst e) : ¬ t.Owned device := by
  cases hs with
  | drop =>
    simp only [LastFirst, Classical.not_imp] at he
    obtain ⟨hcalls, halive, hne⟩ := he
    simp [Owned, HandshakeGuards.drop, Function.update, hcalls, halive, Ne.symm hne]
  | _ => exact absurd trivial he

/-- A record is there exactly while the guard of the last handshake is alive, all along a run,
exactly if no guard of a displaced handshake is dropped before that one. -/
theorem record_owned_iff (h : Run (Step device) (start localId) run t) :
    (t.Owned device ∧ ∀ x ∈ run, x.1.Owned device) ↔ ∀ x ∈ run, x.1.LastFirst x.2 := by
  refine h.holds_iff (fun _ => by simp [start, ConnectionManager.new]) id ?_ ?_
  · intro s e t he hs hs'
    exact hs'.step hs he
  · intro s e t he hs _
    exact not_owned_step hs he

/-- An incoming handshake displaces an outgoing one and ends before its guard is dropped. -/
theorem record_owned_displaced : ∃ run, ∃ t : HandshakeGuards Unit,
    Run (Step ⟨[1]⟩) (start ⟨[0]⟩) run t ∧ t.entered = 2 ∧ t.Owned ⟨[1]⟩ := by
  have h : Run (Step ⟨[1]⟩) (start ⟨[0]⟩ : HandshakeGuards Unit) _ _ :=
    (((((Run.nil.snoc (.contend .outgoing rfl)).snoc (.enter .outgoing (by decide))).snoc
      (.contend .incoming rfl)).snoc (.enter .incoming (by decide))).snoc (.drop 2 rfl)).snoc
      (.drop 1 rfl)
  refine ⟨_, _, h, rfl, ((record_owned_iff h).mpr ?_).1⟩
  simp [LastFirst, start, enter, drop]

/-- The smaller device lets an incoming handshake displace an outgoing one, whose guard then removes
the record of the incoming one. -/
theorem record_not_owned : ∃ run, ∃ t : HandshakeGuards Unit,
    Run (Step ⟨[1]⟩) (start ⟨[0]⟩) run t ∧ ¬ t.Owned ⟨[1]⟩ := by
  have h : Run (Step ⟨[1]⟩) (start ⟨[0]⟩ : HandshakeGuards Unit) _ _ :=
    ((((Run.nil.snoc (.contend .outgoing rfl)).snoc (.enter .outgoing (by decide))).snoc
      (.contend .incoming rfl)).snoc (.enter .incoming (by decide))).snoc (.drop 1 rfl)
  exact ⟨_, _, h, by simp [Owned, start, enter, drop]⟩

end HandshakeGuards

end Syncthing
