import Syncthing.Lib.Broadcast
import Mathlib.Data.List.Induction

/-! `syncthing-sync/src/events.rs` and the loop of `spawn_index_propagation_loop`. Tasks publish
events while the loop is busy with earlier ones. -/
namespace Syncthing

open Broadcast List
open Channel hiding recv

variable {α : Type*}

/-- `EventPublisher::new`. The channel rounds its capacity up to a power of two. -/
def EventPublisher.new (capacity : Nat) : Channel α := ⟨capacity.nextPowerOfTwo, [], 1⟩

/-- The bus of `SyncService::new`. -/
def serviceEvents : Channel α := EventPublisher.new 1000

/-- `EventSubscriber::recv`: an error of the channel becomes `None`, whichever it is. -/
def EventSubscriber.recv (bus : Channel α) (next : Nat) : Option (Option α) × Nat :=
  let (received, next) := bus.recv next
  (received.map fun
    | .value event => some event
    | .lagged _ | .closed => none, next)

open EventSubscriber (recv)

/-- What happens on the bus, in any order: the loop receives, the others publish. -/
inductive BusTurn (α : Type*) where
  | publish (event : α)
  | clonePublisher
  | dropPublisher
  | receive

def BusTurn.bus (bus : Channel α) : BusTurn α → Channel α
  | publish event => bus.send event
  | clonePublisher => bus.cloneSender
  | dropPublisher => bus.dropSender
  | receive => bus

/-- The loop `while let Some(event) = subscriber.recv().await`. -/
structure EventLoop (α : Type*) where
  bus : Channel α
  next : Nat
  handled : List α
  ended : Bool

namespace EventLoop

variable (recv : Channel α → Nat → Option (Option α) × Nat) (bus : Channel α)

def subscribe : EventLoop α := ⟨bus, bus.sent.length, [], false⟩

variable (s : EventLoop α)

def receive : EventLoop α :=
  if s.ended then s
  else match recv s.bus s.next with
    | (none, _) => s
    | (some none, next) => { s with next, ended := true }
    | (some (some event), next) => { s with next, handled := s.handled ++ [event] }

def turn (t : BusTurn α) : EventLoop α :=
  match t with
  | .receive => s.receive recv
  | t => { s with bus := t.bus s.bus }

/-- The loop after some turns. -/
def run (turns : List (BusTurn α)) : EventLoop α := turns.foldl (turn recv) (subscribe bus)

end EventLoop
open EventLoop

variable (bus : Channel α)

/-- What a subscriber that goes on after a lag receives. -/
def EventSubscriber.recvRetained (next : Nat) : Option (Option α) × Nat :=
  recv bus (max next bus.oldest)

variable (turns : List (BusTurn α))

/-- The bus after some turns. -/
def busAfter : Channel α := turns.foldl BusTurn.bus bus

/-- The events published and not yet received, if none is lost. -/
def backlog : Nat := turns.foldl (fun waiting t => match t with
    | .publish _ => waiting + 1
    | .receive => waiting - 1
    | _ => waiting) 0

/-- As long as there is a publisher, `recv` does not return `None`, and the loop runs and has
handled every event that a lag leaves. -/
structure SurvivesLag (bus : Channel α) (schedule : List (BusTurn α)) : Prop where
  recv_none : ∀ before, before ++ [.receive] <+: schedule →
    let s := run recv bus before
    s.ended = false → (recv s.bus s.next).1 = some none → s.bus.senders = 0
  running : ∀ before, before <+: schedule → (busAfter bus before).senders ≠ 0 →
    (run recv bus before).ended = false
  handles : ∀ before, before <+: schedule → (busAfter bus before).senders ≠ 0 →
    (run recv bus before).handled = (run EventSubscriber.recvRetained bus before).handled

/-- Whenever the loop receives, no more events wait than the channel keeps. -/
def KeepsUp (schedule : List (BusTurn α)) : Prop :=
  ∀ before, before ++ [.receive] <+: schedule → (busAfter bus before).senders ≠ 0 →
    backlog before ≤ bus.slots

section
variable {rx : Channel α → Nat → Option (Option α) × Nat} {bus : Channel α}
  {before schedule : List (BusTurn α)} {t : BusTurn α} {s : EventLoop α}

theorem run_concat : run rx bus (before ++ [t]) = (run rx bus before).turn rx t := by
  simp [run]

theorem busAfter_concat : busAfter bus (before ++ [t]) = t.bus (busAfter bus before) := by
  simp [busAfter]

theorem backlog_concat : backlog (before ++ [t]) = match t with
    | .publish _ => backlog before + 1
    | .receive => backlog before - 1
    | _ => backlog before := by
  simp [backlog]

theorem bus_receive : (s.receive rx).bus = s.bus := by
  unfold receive
  split
  · rfl
  · split <;> rfl

/-- The loop does not touch the bus. -/
theorem bus_run : (run rx bus before).bus = busAfter bus before := by
  induction before using reverseRecOn with
  | nil => rfl
  | append_singleton before t ih =>
    rw [run_concat, busAfter_concat, ← ih]
    cases t with
    | receive => exact bus_receive
    | publish | clonePublisher | dropPublisher => rfl

theorem slots_busAfter : (busAfter bus before).slots = bus.slots := by
  induction before using reverseRecOn with
  | nil => rfl
  | append_singleton before t ih =>
    rw [busAfter_concat, ← ih]
    cases t with
    | publish =>
      simp only [BusTurn.bus, send]
      split <;> rfl
    | clonePublisher =>
      simp only [BusTurn.bus, cloneSender]
      split <;> rfl
    | dropPublisher | receive => rfl

/-- A publisher does not come back. -/
theorem senders_of_concat (h : (busAfter bus (before ++ [t])).senders ≠ 0) :
    (busAfter bus before).senders ≠ 0 := by
  intro hzero
  rw [busAfter_concat] at h
  cases t with
  | publish =>
    simp only [BusTurn.bus, send, hzero, if_true] at h
    exact h rfl
  | clonePublisher =>
    simp only [BusTurn.bus, cloneSender, hzero, if_true] at h
    exact h rfl
  | dropPublisher =>
    simp only [BusTurn.bus, dropSender, hzero] at h
    exact h rfl
  | receive => exact h hzero

theorem recv_of_lagged (h : s.next < s.bus.oldest) :
    recv s.bus s.next = (some none, s.bus.oldest) := by
  rw [recv, recv_of_lt_oldest h]
  rfl

theorem recv_of_waiting (hold : s.bus.oldest ≤ s.next) (h : s.next < s.bus.sent.length) :
    recv s.bus s.next = (some (some s.bus.sent[s.next]), s.next + 1) := by
  rw [recv, recv_of_lt hold h]
  rfl

theorem recv_of_empty (h : s.bus.sent.length ≤ s.next) (hsenders : s.bus.senders ≠ 0) :
    recv s.bus s.next = (none, s.next) := by
  rw [recv, recv_of_length_le h, if_neg hsenders]
  rfl

/-- A receive after which the loop still runs: it waits, or has the next event. -/
theorem receive_running (hsenders : s.bus.senders ≠ 0)
    (h : (s.receive recv).ended = false) : s.ended = false ∧
      (s.bus.sent.length ≤ s.next ∧ s.receive recv = s ∨
        ∃ hlt : s.next < s.bus.sent.length, s.receive recv =
          { s with next := s.next + 1, handled := s.handled ++ [s.bus.sent[s.next]] }) := by
  cases hended : s.ended with
  | true => simp [receive, hended] at h
  | false =>
    refine ⟨rfl, ?_⟩
    rcases Nat.lt_or_ge s.next s.bus.oldest with hlag | hlag
    · simp [receive, hended, recv_of_lagged hlag] at h
    · rcases Nat.lt_or_ge s.next s.bus.sent.length with hlt | hge
      · exact .inr ⟨hlt, by simp [receive, hended, recv_of_waiting hlag hlt]⟩
      · exact .inl ⟨hge, by simp [receive, hended, recv_of_empty hge hsenders]⟩

section
variable (hsenders : (busAfter bus before).senders ≠ 0)
include hsenders

/-- Until it ends, the loop works through a queue: what it has before it is the backlog, and it has
handled, in order, what was published since it subscribed, up to its place on the bus. -/
theorem works_in_turn (hrunning : (run recv bus before).ended = false) :
    (run recv bus before).next + backlog before =
        (busAfter bus before).sent.length ∧
      bus.sent ++ (run recv bus before).handled =
        (busAfter bus before).sent.take (run recv bus before).next := by
  induction before using reverseRecOn with
  | nil => exact ⟨rfl, by simp [run, subscribe, busAfter]⟩
  | append_singleton before t ih =>
    have hbefore := senders_of_concat hsenders
    rw [run_concat] at hrunning ⊢
    rw [busAfter_concat, backlog_concat]
    cases t with
    | publish event =>
      obtain ⟨hnext, hhandled⟩ := ih hbefore hrunning
      simp only [BusTurn.bus, send, if_neg hbefore, turn, length_append,
        length_singleton]
      rw [take_append_of_le_length (by omega)]
      exact ⟨by omega, hhandled⟩
    | clonePublisher =>
      simp only [BusTurn.bus, cloneSender, if_neg hbefore]
      exact ih hbefore hrunning
    | dropPublisher => exact ih hbefore hrunning
    | receive =>
      have hbus := @bus_run _ recv bus before
      rw [← hbus] at ih hbefore ⊢
      obtain ⟨hended, hreceive⟩ := receive_running hbefore hrunning
      obtain ⟨hnext, hhandled⟩ := ih hbefore hended
      rcases hreceive with ⟨hge, hsame⟩ | ⟨hlt, hreceived⟩
      · simp only [BusTurn.bus, turn, hsame]
        exact ⟨by omega, hhandled⟩
      · simp only [BusTurn.bus, turn, hreceived]
        rw [← append_assoc, hhandled, take_append_getElem]
        exact ⟨by omega, rfl⟩

/-- Where the backlog is kept, the next thing the loop receives is an event, or it waits. -/
theorem oldest_le_next (hrunning : (run recv bus before).ended = false)
    (hbacklog : backlog before ≤ bus.slots) :
    (busAfter bus before).oldest ≤ (run recv bus before).next := by
  have := (works_in_turn hsenders hrunning).1
  have hslots := @slots_busAfter _ bus before
  unfold oldest
  omega

end

/-- A loop that keeps up runs, and does the same as one that goes on after a lag. -/
theorem run_eq_of_keepsUp (h : KeepsUp bus before) (hsenders : (busAfter bus before).senders ≠ 0) :
    (run recv bus before).ended = false ∧
      run EventSubscriber.recvRetained bus before = run recv bus before := by
  induction before using reverseRecOn with
  | nil => exact ⟨rfl, rfl⟩
  | append_singleton before t ih =>
    have hbefore := senders_of_concat hsenders
    obtain ⟨hrunning, hsame⟩ :=
      ih (fun earlier hearlier => h earlier (hearlier.trans (prefix_append _ _))) hbefore
    rw [run_concat, run_concat, hsame]
    cases t with
    | publish | clonePublisher | dropPublisher => exact ⟨hrunning, rfl⟩
    | receive =>
      have hold := oldest_le_next hbefore hrunning (h before (prefix_refl _) hbefore)
      set s := run recv bus before with hs
      have hbus : s.bus = busAfter bus before := bus_run
      rw [← hbus] at hold hbefore
      have hretained : EventSubscriber.recvRetained s.bus s.next =
          recv s.bus s.next := by
        rw [EventSubscriber.recvRetained, Nat.max_eq_left hold]
      simp only [turn, receive, hrunning, hretained, and_true,
        Bool.false_eq_true, if_false]
      rcases Nat.lt_or_ge s.next s.bus.sent.length with hlt | hge
      · simp [recv_of_waiting hold hlt]
      · simp [recv_of_empty hge hbefore, hrunning]

/-- The loop survives a schedule exactly if it keeps up with the publishers. -/
theorem survivesLag_iff_keepsUp : SurvivesLag bus schedule ↔ KeepsUp bus schedule := by
  constructor
  · intro h before hbefore hsenders
    by_contra hbacklog
    have hinitial := (prefix_append before [BusTurn.receive]).trans hbefore
    have hrunning := h.running before hinitial hsenders
    have hnext := (works_in_turn hsenders hrunning).1
    -- the loop has fallen behind, and what it receives next ends it
    have hend := h.running _ hbefore (by rwa [busAfter_concat])
    have hbus := @bus_run _ recv bus before
    have hslots := @slots_busAfter _ bus before
    rw [run_concat] at hend
    set s := run recv bus before
    have hlag : s.next < s.bus.oldest := by
      rw [hbus, oldest]
      omega
    simp [turn, receive, hrunning, recv_of_lagged hlag] at hend
  · intro h
    have hkeeps : ∀ {before}, before <+: schedule → KeepsUp bus before :=
      fun hinitial earlier hearlier => h earlier (hearlier.trans hinitial)
    refine ⟨fun before hbefore => ?_, fun before hbefore hsenders => ?_,
      fun before hbefore hsenders => ?_⟩
    · intro s hrunning hnone
      by_contra hsenders
      have hbus : s.bus = busAfter bus before := bus_run
      rw [hbus] at hsenders
      have hold := oldest_le_next hsenders hrunning (h before hbefore hsenders)
      rw [← hbus] at hold hsenders
      rcases Nat.lt_or_ge s.next s.bus.sent.length with hlt | hge
      · simp [recv_of_waiting hold hlt] at hnone
      · simp [recv_of_empty hge hsenders] at hnone
    · exact (run_eq_of_keepsUp (hkeeps hbefore) hsenders).1
    · rw [(run_eq_of_keepsUp (hkeeps hbefore) hsenders).2]

/-- While the loop is busy, events pile up on the bus. -/
theorem run_publish (event : α) (n : Nat) (hsenders : bus.senders ≠ 0) :
    run rx bus (replicate n (.publish event)) =
      ⟨{ bus with sent := bus.sent ++ replicate n event }, bus.sent.length, [], false⟩ := by
  induction n with
  | zero => simp [run, subscribe]
  | succ n ih =>
    rw [replicate_succ', run_concat, ih]
    simp [turn, BusTurn.bus, send, hsenders, replicate_succ']

/-- While the loop is busy, one more event is published than the channel keeps: the loop ends with
all of them unhandled, though there is a publisher. -/
theorem lag_ends_loop :
    let s := run recv serviceEvents
      (replicate 1025 (BusTurn.publish "event") ++ [.receive])
    s.ended = true ∧ s.handled = [] ∧ s.bus.senders = 1 ∧ s.bus.slots = 1024 := by
  have hslots : (serviceEvents : Channel String).slots = 1024 := by decide +kernel
  intro s
  have hs : s = turn recv
      ⟨{ (serviceEvents : Channel String) with sent := replicate 1025 "event" }, 0, [], false⟩
      .receive := by
    change run _ _ _ = _
    rw [run_concat, run_publish "event" 1025 Nat.one_ne_zero]
    rfl
  have hlag : 0 < oldest
      { (serviceEvents : Channel String) with sent := replicate 1025 "event" } := by
    rw [oldest, length_replicate, hslots]
    decide
  rw [hs, turn, receive, if_neg Bool.false_ne_true, recv,
    recv_of_lt_oldest hlag]
  exact ⟨rfl, rfl, rfl, hslots⟩

end
end Syncthing
