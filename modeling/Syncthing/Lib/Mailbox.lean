import Mathlib.Data.List.Basic

/-! A bounded queue between two tasks. A value that finds it full is dropped. -/

structure Mailbox (α : Type*) (capacity : Nat) where
  queue : List α
  bounded : queue.length ≤ capacity

namespace Mailbox

open List

variable {α : Type*} {capacity : Nat} {b : Mailbox α capacity}

def empty : Mailbox α capacity := ⟨[], Nat.zero_le _⟩

def trySend (b : Mailbox α capacity) (a : α) : Mailbox α capacity :=
  if h : b.queue.length < capacity then
    ⟨b.queue ++ [a], by rw [length_append, length_singleton]; omega⟩
  else b

/-- The first value, if there is one, and the queue behind it. -/
def recv (b : Mailbox α capacity) : Option α × Mailbox α capacity :=
  (b.queue.head?, ⟨b.queue.tail, by
    have := b.bounded
    rw [length_tail]
    omega⟩)

theorem queue_of_recv {a : α} {b' : Mailbox α capacity} (h : b.recv = (some a, b')) :
    b.queue = a :: b'.queue := by
  have hhead : b.queue.head? = some a := congrArg Prod.fst h
  have htail : b.queue.tail = b'.queue := congrArg (fun p => p.2.queue) h
  rw [← htail]
  exact (cons_head?_tail hhead).symm

theorem queue_trySend (a : α) : (b.trySend a).queue = (b.queue ++ [a]).take capacity := by
  have := b.bounded
  unfold trySend
  split
  · rw [take_of_length_le]
    rw [length_append, length_singleton]
    omega
  · rw [take_append_of_le_length (by omega), take_of_length_le b.bounded]

theorem queue_trySend_of_room {a : α} (h : b.queue.length < capacity) :
    (b.trySend a).queue = b.queue ++ [a] := by
  rw [trySend, dif_pos h]

/-- Of the values sent one after the other, those are kept that there is room for. -/
theorem queue_sendAll (as : List α) :
    (as.foldl trySend b).queue = (b.queue ++ as).take capacity := by
  induction as generalizing b with
  | nil => simp [take_of_length_le b.bounded]
  | cons a as ih =>
    rw [foldl_cons, ih, queue_trySend]
    by_cases hfull : b.queue.length < capacity
    · have hfits : (b.queue ++ [a]).length ≤ capacity := by
        rw [length_append, length_singleton]
        omega
      rw [take_of_length_le hfits, append_assoc, singleton_append]
    · have hlength : b.queue.length = capacity := Nat.le_antisymm b.bounded (by omega)
      rw [take_left' hlength, take_left' hlength, take_left' hlength]

end Mailbox
