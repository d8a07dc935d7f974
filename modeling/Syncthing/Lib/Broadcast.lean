import Mathlib.Data.List.Basic

/-! A channel keeps the last values it was sent. A receiver that has fallen behind is told so once
and goes on with the oldest value kept. -/
namespace Broadcast

variable {α : Type*} {next : Nat}

/-- All that was ever sent, of which `slots` values are kept. -/
structure Channel (α : Type*) where
  slots : Nat
  sent : List α
  senders : Nat

inductive Received (α : Type*) where
  | value (a : α)
  | lagged (missed : Nat)
  | closed

namespace Channel

variable (c : Channel α)

def oldest : Nat := c.sent.length - c.slots

/-- An attempt to receive the value at a position; no answer while there is nothing to receive. -/
def recv (next : Nat) : Option (Received α) × Nat :=
  if next < c.oldest then (some (.lagged (c.oldest - next)), c.oldest)
  else match c.sent[next]? with
    | some a => (some (.value a), next + 1)
    | none => (if c.senders = 0 then some .closed else none, next)

def send (a : α) : Channel α := if c.senders = 0 then c else { c with sent := c.sent ++ [a] }

/-- A sender can be made only from another one. -/
def cloneSender : Channel α := if c.senders = 0 then c else { c with senders := c.senders + 1 }

def dropSender : Channel α := { c with senders := c.senders - 1 }

variable {c}

theorem recv_of_lt_oldest (h : next < c.oldest) :
    c.recv next = (some (.lagged (c.oldest - next)), c.oldest) := if_pos h

/-- A receiver that is not too far behind gets the next value. -/
theorem recv_of_lt (hold : c.oldest ≤ next) (h : next < c.sent.length) :
    c.recv next = (some (.value c.sent[next]), next + 1) := by
  rw [recv, if_neg (by omega), List.getElem?_eq_getElem h]

theorem recv_of_length_le (h : c.sent.length ≤ next) :
    c.recv next = (if c.senders = 0 then some .closed else none, next) := by
  have hold : ¬ next < c.oldest := by
    unfold oldest
    omega
  rw [recv, if_neg hold, List.getElem?_eq_none h]

/-- What is received has been sent. -/
theorem mem_sent_of_recv {a : α} {next' : Nat} (h : c.recv next = (some (.value a), next')) :
    a ∈ c.sent := by
  unfold recv at h
  split at h
  · cases h
  · split at h
    · rename_i b hb
      cases h
      exact List.mem_of_getElem? hb
    · split at h <;> cases h

end Channel
end Broadcast
