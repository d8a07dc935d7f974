import Syncthing.Lib.Mailbox
import Syncthing.Net.Framing

/-! Between the read task and `recv_message` there is a queue of bounded length. The read task does
not wait for room in it. -/
namespace Syncthing

open List
open Mailbox (queue_sendAll recv trySend)
open ReadTask (arrive)

/-- The capacity `BepConnection::new` gives its queue. -/
def incomingCapacity : Nat := 256

/-- The receiving side of a `BepConnection`. -/
structure Incoming where
  task : ReadTask × Bytes
  queue : Mailbox (MessageType × Bytes) incomingCapacity
  returned : List (MessageType × Bytes)

/-- The transport brings something, or the session calls `recv_message`. -/
inductive IncomingTurn where
  | arrival (a : Arrival)
  | recvMessage

namespace Incoming

variable (codec : FrameCodec)

def start : Incoming := ⟨(ReadTask.start, []), .empty, []⟩

/-- The messages the read task has decoded so far. -/
def read (c : Incoming) : List (MessageType × Bytes) := c.task.1.received

/-- The read task offers what it has decoded to the queue and only logs that it was refused. -/
def arrive (c : Incoming) (a : Arrival) : Incoming :=
  let task := ReadTask.arrive codec c.task a
  { c with
    task
    queue := (task.1.received.drop c.read.length).foldl trySend c.queue }

/-- As long as there is nothing, `recv_message` waits, and gives up in the end. -/
def recvMessage (c : Incoming) : Incoming :=
  match c.queue.recv with
  | (none, _) => c
  | (some msg, queue) => { c with queue, returned := c.returned ++ [msg] }

def turn (c : Incoming) : IncomingTurn → Incoming
  | .arrival a => c.arrive codec a
  | .recvMessage => c.recvMessage

def run (turns : List IncomingTurn) : Incoming := turns.foldl (turn codec) start

end Incoming
open Incoming (run turn)

variable (codec : FrameCodec)

/-- The messages decoded and not returned yet, if none is lost: what has arrived up to now, and
how many messages of it wait. -/
def unreturned (turns : List IncomingTurn) : (ReadTask × Bytes) × Nat :=
  turns.foldl (fun p t => match t with
    | .arrival a =>
      let task := arrive codec p.1 a
      (task, p.2 + (task.1.received.length - p.1.1.received.length))
    | .recvMessage => (p.1, p.2 - 1)) ((ReadTask.start, []), 0)

variable (schedule : List IncomingTurn)

/-- At every moment, what `recv_message` has returned is the first part of what was read, and the
rest waits in the queue. -/
def NoneSkipped : Prop :=
  ∀ before, before <+: schedule →
    let c := run codec before
    c.returned <+: c.read ∧ c.returned ++ c.queue.queue = c.read

/-- No more messages wait than the queue has room for. -/
def HasRoom : Prop := ∀ before, before <+: schedule → (unreturned codec before).2 ≤ incomingCapacity

section
variable {codec : FrameCodec} {t : ReadTask} {p : ReadTask × Bytes} {c : Incoming}
  {before schedule : List IncomingTurn} {arrivals : List Arrival}

theorem received_gotMessage {header msg : Bytes} :
    t.received <+: (t.gotMessage codec header msg).received := by
  unfold ReadTask.gotMessage
  split
  · exact prefix_refl _
  · split
    · exact prefix_refl _
    · split
      · split
        · exact prefix_refl _
        · simp only []
          split
          · exact prefix_refl _
          · exact prefix_append _ _
      · exact prefix_append _ _

/-- The read task only adds to what it has decoded. -/
theorem received_arrive (a : Arrival) : p.1.received <+: (arrive codec p a).1.received := by
  have hcomplete : ∀ bytes, p.1.received <+: (p.1.complete codec bytes).received := by
    intro bytes
    unfold ReadTask.complete
    split
    · unfold ReadTask.gotHeaderLength
      split
      · exact prefix_refl _
      · split <;> exact prefix_refl _
    · exact prefix_refl _
    · unfold ReadTask.gotMessageLength
      split
      · exact prefix_refl _
      · split
        · exact received_gotMessage
        · exact prefix_refl _
    · exact received_gotMessage
    · exact prefix_refl _
  cases a with
  | byte b =>
    simp only [ReadTask.arrive, Wire.feed]
    split
    · exact prefix_refl _
    · exact hcomplete _
  | elapsed =>
    simp only [ReadTask.arrive, ReadTask.elapsed]
    split
    · split <;> exact prefix_refl _
    all_goals exact prefix_refl _

theorem received_arrive_eq (a : Arrival) : p.1.received ++
    (arrive codec p a).1.received.drop p.1.received.length = (arrive codec p a).1.received := by
  obtain ⟨new, hnew⟩ := @received_arrive codec p a
  rw [← hnew, drop_left]

theorem run_append (turns : List IncomingTurn) : run codec (before ++ turns) =
    turns.foldl (turn codec) (run codec before) := foldl_append

theorem unreturned_concat (turn : IncomingTurn) :
    unreturned codec (before ++ [turn]) = match turn with
      | .arrival a =>
        let task := arrive codec (unreturned codec before).1 a
        (task, (unreturned codec before).2 +
          (task.1.received.length - (unreturned codec before).1.1.received.length))
      | .recvMessage => ((unreturned codec before).1, (unreturned codec before).2 - 1) := by
  simp only [unreturned, foldl_append, foldl_cons, foldl_nil]

/-- The consumer has no influence on the read task. -/
theorem task_run : (run codec before).task = (unreturned codec before).1 := by
  induction before using reverseRecOn with
  | nil => rfl
  | append_singleton before turn ih =>
    rw [run_append, unreturned_concat]
    cases turn with
    | arrival a => simp only [foldl_cons, foldl_nil, turn, Incoming.arrive, ih]
    | recvMessage =>
      simp only [foldl_cons, foldl_nil, turn, Incoming.recvMessage]
      split <;> exact ih

/-- A call of `recv_message` moves the first message of the queue. -/
theorem recvMessage_eq : c.recvMessage.task = c.task ∧
    c.recvMessage.returned ++ c.recvMessage.queue.queue = c.returned ++ c.queue.queue ∧
    c.recvMessage.queue.queue = c.queue.queue.tail := by
  obtain ⟨task, queue, returned⟩ := c
  obtain ⟨messages, hbounded⟩ := queue
  cases messages with
  | nil => exact ⟨rfl, rfl, rfl⟩
  | cons msg messages =>
    refine ⟨rfl, ?_, rfl⟩
    simp [Incoming.recvMessage, recv]

/-- As long as none is skipped, the messages that wait are those in the queue. -/
theorem length_queue_of_noneSkipped (h : NoneSkipped codec before) :
    (run codec before).queue.queue.length = (unreturned codec before).2 := by
  induction before using reverseRecOn with
  | nil => rfl
  | append_singleton before turn ih =>
    have hinitial := prefix_append before [turn]
    have ih := ih fun earlier hearlier => h earlier (hearlier.trans hinitial)
    have hbefore := (h before hinitial).2
    have hafter := (h _ (prefix_refl _)).2
    rw [unreturned_concat]
    rw [run_append] at hafter ⊢
    simp only [foldl_cons, foldl_nil] at hafter ⊢
    cases turn with
    | arrival a =>
      have hread := congrArg length hafter
      have hread' := congrArg length hbefore
      have hmono := (@received_arrive codec (unreturned codec before).1 a).length_le
      simp only [turn, Incoming.arrive, Incoming.read, length_append, task_run]
        at hread hread' ⊢
      omega
    | recvMessage => simp only [turn, recvMessage_eq.2.2, length_tail, ih]

/-- With room for all of them, the messages pass the queue in order. -/
theorem conserved_of_hasRoom (h : HasRoom codec before) :
    (run codec before).returned ++ (run codec before).queue.queue =
      (run codec before).read ∧
    (run codec before).queue.queue.length = (unreturned codec before).2 := by
  induction before using reverseRecOn with
  | nil => exact ⟨rfl, rfl⟩
  | append_singleton before turn ih =>
    have hinitial := prefix_append before [turn]
    obtain ⟨hread, hlength⟩ := ih fun earlier hearlier => h earlier (hearlier.trans hinitial)
    have hroom := h _ (prefix_refl _)
    rw [unreturned_concat] at hroom ⊢
    rw [run_append]
    simp only [foldl_cons, foldl_nil]
    set c := run codec before with hc
    have htask : c.task = (unreturned codec before).1 := task_run
    cases turn with
    | arrival a =>
      simp only [← htask, ← hlength] at hroom ⊢
      have hdrop : ((ReadTask.arrive codec c.task a).1.received.drop c.read.length).length =
          (ReadTask.arrive codec c.task a).1.received.length - c.task.1.received.length :=
        length_drop
      have hqueue : (c.arrive codec a).queue.queue =
          c.queue.queue ++ (ReadTask.arrive codec c.task a).1.received.drop c.read.length := by
        rw [Incoming.arrive, Mailbox.queue_sendAll, take_of_length_le]
        rw [length_append, hdrop]
        exact hroom
      refine ⟨?_, ?_⟩
      · rw [turn, hqueue, ← append_assoc]
        change c.returned ++ c.queue.queue ++ _ = (ReadTask.arrive codec c.task a).1.received
        rw [hread]
        exact received_arrive_eq a
      · rw [turn, hqueue, length_append, hdrop]
    | recvMessage =>
      obtain ⟨htask', hsame, htail⟩ := @recvMessage_eq c
      refine ⟨?_, ?_⟩
      · rw [turn, hsame, hread, Incoming.read, Incoming.read, htask']
      · rw [turn, htail, length_tail, hlength]

/-- Whatever comes between two calls of `recv_message`, the queue keeps what it has room for. -/
theorem arrive_all (arrivals : List Arrival) :
    (arrivals.map .arrival).foldl (turn codec) c =
      { c with
        task := arrivals.foldl (arrive codec) c.task
        queue := ((arrivals.foldl (arrive codec) c.task).1.received.drop
          c.read.length).foldl trySend c.queue } := by
  induction arrivals generalizing c with
  | nil => simp [Incoming.read]
  | cons a arrivals ih =>
    have hmono : ∀ (arrivals : List Arrival) (p : ReadTask × Bytes),
        p.1.received <+: (arrivals.foldl (arrive codec) p).1.received := by
      intro arrivals
      induction arrivals with
      | nil => exact fun p => prefix_refl _
      | cons a arrivals ih => exact fun p => (received_arrive a).trans (ih _)
    obtain ⟨new, hnew⟩ := @received_arrive codec c.task a
    obtain ⟨more, hmore⟩ := hmono arrivals (arrive codec c.task a)
    rw [map_cons, foldl_cons, ih]
    simp only [turn, Incoming.arrive, Incoming.read, foldl_cons, ← hmore, ← hnew,
      drop_left, append_assoc, foldl_append]
    rw [← append_assoc, drop_left]

/-- Calls of `recv_message` return the queue from its front. -/
theorem recv_all (n : Nat) :
    ((replicate n .recvMessage).foldl (turn codec) c).returned =
      c.returned ++ c.queue.queue.take n ∧
    ((replicate n .recvMessage).foldl (turn codec) c).read = c.read := by
  induction n generalizing c with
  | zero => simp
  | succ n ih =>
    obtain ⟨task, ⟨messages, hbounded⟩, returned⟩ := c
    rw [replicate_succ, foldl_cons, (ih).1, (ih).2]
    cases messages with
    | nil | cons => exact ⟨by simp [turn, Incoming.recvMessage, recv], rfl⟩

/-- The frames of some messages, one after the other. -/
def frames (codec : FrameCodec) (ms : List OutgoingMessage) : List IncomingTurn :=
  ((ms.flatMap codec.writeFrame).map Arrival.byte).map .arrival

theorem run_frames {ms : List OutgoingMessage} (htask : c.task = (t, []))
    (hreading : t.reading = .headerLength) (hidle : t.idleTimeouts = 0)
    (h : ∀ m ∈ ms, Sendable codec m) (hsize : ∀ m ∈ ms, m.payload.length ≤ maxBepMessageSize) :
    let received := ms.map fun m => (m.header.messageType, m.payload)
    (frames codec ms).foldl (turn codec) c = { c with
        task := ({ t with received := t.received ++ received }, [])
        queue := received.foldl trySend c.queue } := by
  have hread : c.read = t.received := congrArg (fun p => p.1.received) htask
  rw [frames, arrive_all, htask, ReadTask.run_bytes,
    ReadTask.read_frames hreading hidle h hsize, hread]
  simp only [drop_left]

/-- No message is skipped exactly if the queue always has room. -/
theorem none_skipped_iff : NoneSkipped codec schedule ↔ HasRoom codec schedule := by
  constructor
  · intro h before hbefore
    have hlength := length_queue_of_noneSkipped
      (fun earlier hearlier => h earlier (hearlier.trans hbefore))
    rw [← hlength]
    exact (run codec before).queue.bounded
  · intro h before hbefore
    have hconserved := (conserved_of_hasRoom
      (fun earlier hearlier => h earlier (hearlier.trans hbefore))).1
    exact ⟨⟨_, hconserved⟩, hconserved⟩

/-- One ping more than there is room for, a call that takes one of them, and a close message. -/
theorem run_overflow {n : Nat} (hn : incomingCapacity = n + 1) :
    let c := run literalCodec
      (frames literalCodec (replicate (n + 2) ⟨⟨.ping, 0, false⟩, []⟩) ++
        (.recvMessage :: frames literalCodec [⟨⟨.close, 0, false⟩, []⟩] ++
          replicate (n + 1) .recvMessage))
    c.read = replicate (n + 2) (.ping, []) ++ [(.close, [])] ∧
      c.returned = replicate (n + 1) (.ping, []) ++ [(.close, [])] := by
  intro c
  have hpings := @run_frames literalCodec ReadTask.start Incoming.start
    (replicate (n + 2) ⟨⟨.ping, 0, false⟩, []⟩) rfl rfl rfl
    (fun m hm => .inl (by rw [eq_of_mem_replicate hm]))
    (fun m hm => by rw [eq_of_mem_replicate hm]; exact Nat.zero_le _)
  set c₁ := (frames literalCodec (replicate (n + 2) ⟨⟨.ping, 0, false⟩, []⟩)).foldl
    (turn literalCodec) Incoming.start
  have hqueue₁ : c₁.queue.queue = replicate (n + 1) (.ping, []) := by
    rw [hpings, queue_sendAll, map_replicate]
    change take incomingCapacity (replicate (n + 2) _) = _
    rw [take_replicate, hn, Nat.min_eq_left (Nat.le_succ _)]
  -- The call in between makes room for the message that comes next.
  obtain ⟨htask₂, -, hqueue₂⟩ := @recvMessage_eq c₁
  have hreturned₂ : c₁.recvMessage.returned = [(.ping, [])] := by
    have hempty : c₁.returned = [] := congrArg Incoming.returned hpings
    have h := (@recv_all literalCodec c₁ 1).1
    rw [hqueue₁, hempty] at h
    exact h
  rw [hqueue₁, tail_replicate, Nat.add_sub_cancel] at hqueue₂
  have hclose := @run_frames literalCodec
    { ReadTask.start with received := replicate (n + 2) (.ping, []) } c₁.recvMessage
    [⟨⟨.close, 0, false⟩, []⟩] (by rw [htask₂, hpings, map_replicate]; rfl) rfl rfl
    (fun m hm => .inl (by rw [List.mem_singleton.mp hm]))
    (fun m hm => by rw [List.mem_singleton.mp hm]; exact Nat.zero_le _)
  set c₃ := (frames literalCodec [⟨⟨.close, 0, false⟩, []⟩]).foldl (turn literalCodec)
    c₁.recvMessage
  have hqueue₃ : c₃.queue.queue = replicate n (.ping, []) ++ [(.close, [])] := by
    rw [hclose, queue_sendAll, hqueue₂]
    exact take_of_length_le (by simp [hn])
  have hc : c = (replicate (n + 1) .recvMessage).foldl (turn literalCodec) c₃ := by
    simp only [c, run, foldl_append, foldl_cons]
    rfl
  obtain ⟨hreturned, hread⟩ := @recv_all literalCodec c₃ (n + 1)
  refine ⟨?_, ?_⟩
  · rw [hc, hread, hclose]
    rfl
  · rw [hc, hreturned, hqueue₃, take_of_length_le (by simp), hclose, hreturned₂]
    rfl

theorem frame_skipped :
    let c := run literalCodec
      (frames literalCodec (replicate 257 ⟨⟨.ping, 0, false⟩, []⟩) ++
        (.recvMessage :: frames literalCodec [⟨⟨.close, 0, false⟩, []⟩] ++
          replicate 256 .recvMessage))
    c.read = replicate 257 (.ping, []) ++ [(.close, [])] ∧
      c.returned = replicate 256 (.ping, []) ++ [(.close, [])] ∧ ¬ c.returned <+: c.read := by
  intro c
  obtain ⟨hread, hreturned⟩ := @run_overflow 255 rfl
  refine ⟨hread, hreturned, fun hinitial => ?_⟩
  rw [hread, hreturned, replicate_succ' (n := 256), append_assoc,
    prefix_append_right_inj] at hinitial
  exact absurd hinitial (by decide)

end
end Syncthing
