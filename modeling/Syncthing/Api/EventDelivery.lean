import Mathlib.Data.List.Nodup
import Syncthing.Api.Events
import Syncthing.Lib.Transition

/-! The ids of the buffer tell a polling client how far it has got, as long as messages enter the
buffer in the order of their ids and nothing given to the client gets a new id. -/
namespace Syncthing

open Broadcast Transition List EventMessage PollStep Publishing Nat

/-- The number of an event that has an id and is not in the buffer yet. -/
def Publishing.numbered? : Publishing Nat → Option Nat
  | .numbered _ msg => some msg.data
  | .pushed _ => none

/-- The number of an event that is in the buffer and still has to be sent. -/
def Publishing.pushed? : Publishing Nat → Option Nat
  | .numbered .. => none
  | .pushed event => some event.data

section publishing
variable {event : Event Nat} {msg : EventMessage Nat} {rest : List (Publishing Nat)}

@[simp] theorem numbered?_cons_numbered : (numbered event msg :: rest).filterMap
    numbered? = msg.data :: rest.filterMap numbered? := rfl

@[simp] theorem numbered?_cons_pushed : (pushed event :: rest).filterMap
    numbered? = rest.filterMap numbered? := rfl

@[simp] theorem pushed?_cons_numbered : (numbered event msg :: rest).filterMap
    pushed? = rest.filterMap pushed? := rfl

@[simp] theorem pushed?_cons_pushed : (pushed event :: rest).filterMap
    pushed? = event.data :: rest.filterMap pushed? := rfl

end publishing

namespace Polling

variable (s : Polling)

def returned : List (EventMessage Nat) := s.answers.flatten

/-- What the handler has for the answer under way. -/
def collected : List (EventMessage Nat) :=
  match s.handler with
  | .waiting _ _ collected => collected
  | _ => []

/-- What the client has got, or gets with the answer under way. -/
def given : List (EventMessage Nat) := s.returned ++ s.collected

/-- The largest id of all that. -/
def mark : Nat := (s.collected.map (·.id)).foldl max s.since

/-- The buffered events the client asks for. -/
def wanted : List (EventMessage Nat) := s.buffer.inner.filter s.wants

/-- Every event seen in the buffer by a poll is given to the client once, or will be found there by
the next poll, and the ids increase. -/
structure Delivers : Prop where
  increasing : (s.given.map (·.id)).Pairwise (· < ·)
  once : (s.given.map (·.data)).Nodup
  complete : ∀ n ∈ s.seen, n ∈ s.given.map (·.data) ∨
    ∃ msg ∈ s.wanted, msg.data = n ∧ s.mark < msg.id

/-- Ids do not wrap around; a message the client asks for enters the buffer after those with smaller
ids and before the client is given a larger one; no event that was seen by a poll is evicted before
it is given; and an event is received while it is the only one ahead. -/
def PollGuard : PollEvent → Prop
  | .number .. | .numberElsewhere => s.counter + 1 < 2 ^ 64
  | .push msg =>
    (s.wants msg = true → s.mark < msg.id ∧ ∀ x ∈ s.wanted, x.id < msg.id) ∧
      (s.buffer.capacity ≤ s.buffer.inner.length → ∀ x ∈ s.buffer.inner.head?,
        s.wants x = true → s.mark < x.id → x.data ∉ s.seen)
  | .receive event _ => s.counter + 1 < 2 ^ 64 ∧ event.data ∉ s.given.map (·.data) ∧
      ∀ x ∈ s.wanted, s.mark < x.id → x.data = event.data
  | _ => True

/-- The numbers of the events that have an id and are not in the buffer yet. -/
def numbered : List Nat := s.publishing.filterMap numbered?

/-- The numbers of the events that have been in the buffer. -/
def out : List Nat := s.given.map (·.data) ++ s.buffer.inner.map (·.data) ++
    s.publishing.filterMap pushed? ++ s.channel.sent.map (·.data)

/-- No number is used twice. -/
structure NumbersInv : Prop where
  nodup : s.numbered.Nodup
  disjoint : s.numbered.Disjoint s.out
  fresh : ∀ n ∈ s.numbered ++ s.out, n < s.published
  buffer : (s.buffer.inner.map (·.data)).Nodup
  same : ∀ event msg, .numbered event msg ∈ s.publishing → msg.data = event.data

/-- The counter is past every id. -/
structure IdsInv : Prop where
  mark : s.mark < s.counter
  buffer : ∀ x ∈ s.buffer.inner, x.id < s.counter
  publishing : ∀ event msg, .numbered event msg ∈ s.publishing → msg.id < s.counter

/-- What the client asked for is behind the mark exactly if it has been given. -/
structure MarkInv : Prop where
  increasing : (s.given.map (·.id)).Pairwise (· < ·)
  le_mark : ∀ x ∈ s.given, x.id ≤ s.mark
  once : (s.given.map (·.data)).Nodup
  sorted : (s.wanted.map (·.id)).Pairwise (· < ·)
  behind : ∀ x ∈ s.wanted, x.id ≤ s.mark → x.data ∈ s.given.map (·.data)
  ahead : ∀ x ∈ s.wanted, s.mark < x.id → x.data ∉ s.given.map (·.data)
  seen : ∀ n ∈ s.seen, n ∈ s.given.map (·.data) ∨ n ∈ s.wanted.map (·.data)

structure Inv : Prop where
  numbers : s.NumbersInv
  ids : s.IdsInv
  marks : s.MarkInv

/-- A bus on which nothing has been published and a client that has not polled. -/
structure IsFresh : Prop where
  counter : 0 < s.counter
  buffer : s.buffer.inner = []
  channel : s.channel.sent = []
  publishing : s.publishing = []
  published : s.published = 0
  handler : s.handler = .idle
  since : s.since = 0
  answers : s.answers = []
  seen : s.seen = []

variable {s} {s' : Polling} {e : PollEvent} {events : List (EventMessage Nat)}

theorem mem_out {n : Nat} : n ∈ s.out ↔ n ∈ s.given.map (·.data) ∨
    n ∈ s.buffer.inner.map (·.data) ∨ n ∈ s.publishing.filterMap pushed? ∨
      n ∈ s.channel.sent.map (·.data) := by
  simp only [out, mem_append, or_assoc]

theorem Inv.delivers (h : s.Inv) : s.Delivers := by
  refine ⟨h.marks.increasing, h.marks.once, fun n hn => ?_⟩
  rcases h.marks.seen n hn with hgiven | hbuffer
  · exact .inl hgiven
  · obtain ⟨x, hx, rfl⟩ := mem_map.mp hbuffer
    rcases Nat.lt_or_ge s.mark x.id with hlt | hle
    · exact .inr ⟨x, hx, rfl, hlt⟩
    · exact .inl (h.marks.behind x hx hle)

theorem IsFresh.inv (h : s.IsFresh) : s.Inv := by
  have hcollected : s.collected = [] := by simp [collected, h.handler]
  have hgiven : s.given = [] := by simp [given, returned, h.answers, hcollected]
  have hwanted : s.wanted = [] := by simp [wanted, h.buffer]
  refine ⟨⟨?_, ?_, ?_, ?_, ?_⟩, ⟨?_, ?_, ?_⟩, ⟨?_, ?_, ?_, ?_, ?_, ?_, ?_⟩⟩
  all_goals simp [numbered, out, mark, hgiven, hwanted, hcollected, h.publishing, h.buffer,
    h.channel, h.since, h.seen, h.counter]

/-! ### What each step leaves alone -/

theorem MarkInv.congr (h : s.MarkInv) (hgiven : s'.given = s.given) (hmark : s'.mark = s.mark)
    (hwanted : s'.wanted = s.wanted) (hseen : s'.seen = s.seen) : s'.MarkInv := by
  obtain ⟨h1, h2, h3, h4, h5, h6, h7⟩ := h
  refine ⟨?_, ?_, ?_, ?_, ?_, ?_, ?_⟩ <;> simp only [hgiven, hmark, hwanted, hseen] <;> assumption

theorem fetchAdd_eq {counter : Nat} (h : counter + 1 < 2 ^ 64) : fetchAdd counter = counter + 1 :=
  mod_eq_of_lt h

/-- Ids that have been taken stay taken. -/
theorem IdsInv.mono (h : s.IdsInv) (hcounter : s.counter ≤ s'.counter)
    (hmark : s'.mark < s'.counter) (hbuffer : s'.buffer.inner = s.buffer.inner)
    (hpublishing : ∀ event msg, .numbered event msg ∈ s'.publishing →
      .numbered event msg ∈ s.publishing ∨ msg.id < s'.counter) : s'.IdsInv := by
  refine ⟨hmark, ?_, fun event msg hmem => ?_⟩
  · rw [hbuffer]
    exact fun x hx => Nat.lt_of_lt_of_le (h.buffer x hx) hcounter
  · rcases hpublishing event msg hmem with hmem | hlt
    · exact Nat.lt_of_lt_of_le (h.publishing event msg hmem) hcounter
    · exact hlt

/-- No event is numbered twice, and what comes out was out already or on its way. -/
theorem NumbersInv.mono (h : s.NumbersInv) (hnumbered : s'.numbered.Sublist s.numbered)
    (hpublished : s'.published = s.published) (hbuffer : (s'.buffer.inner.map data).Nodup)
    (hout : ∀ n ∈ s'.out, n ∈ s.out ∨ n ∈ s.numbered ∧ n ∉ s'.numbered)
    (hpublishing : ∀ event msg, .numbered event msg ∈ s'.publishing →
      .numbered event msg ∈ s.publishing) : s'.NumbersInv := by
  refine ⟨h.nodup.sublist hnumbered, fun n hn hn' => ?_, fun n hn => ?_, hbuffer,
    fun event msg hmem => h.same event msg (hpublishing event msg hmem)⟩
  · rcases hout n hn' with hn' | ⟨-, hnot⟩
    · exact h.disjoint (hnumbered.subset hn) hn'
    · exact hnot hn
  · rw [hpublished]
    refine h.fresh n ?_
    rcases mem_append.mp hn with hn | hn
    · exact mem_append_left _ (hnumbered.subset hn)
    · rcases hout n hn with hn | ⟨hn, -⟩ <;> simp [hn]

theorem inv_number {type : EventType} {time : Nat} (h : s.Inv) (hok : s.counter + 1 < 2 ^ 64) :
    (s.number type time).Inv := by
  have hnumbered : (s.number type time).numbered = s.numbered ++ [s.published] := by
    simp [numbered, number, convertEventToMessage]
  have hout : (s.number type time).out = s.out := by simp [out, number, given, returned, collected]
  have hcounter : (s.number type time).counter = s.counter + 1 := fetchAdd_eq hok
  have hnew : ∀ n ∈ s.numbered ++ s.out, n ≠ s.published := by
    intro n hn
    have := h.numbers.fresh n hn
    omega
  refine ⟨⟨?_, ?_, ?_, h.numbers.buffer, ?_⟩,
    h.ids.mono (hcounter ▸ le_succ _) (hcounter ▸ lt_succ_of_lt h.ids.mark) rfl ?_,
    h.marks.congr rfl rfl rfl rfl⟩
  · rw [hnumbered, nodup_append]
    refine ⟨h.numbers.nodup, by simp, fun n hn m hm => ?_⟩
    rw [mem_singleton.mp hm]
    exact hnew n (by simp [hn])
  · rw [hnumbered, hout]
    intro n hn hn'
    rcases mem_append.mp hn with hn | hn
    · exact h.numbers.disjoint hn hn'
    · exact hnew n (by simp [hn']) (mem_singleton.mp hn)
  · rw [hnumbered, hout]
    intro n hn
    show n < s.published + 1
    simp only [mem_append, mem_singleton] at hn
    rcases hn with (hn | rfl) | hn
    · exact lt_succ_of_lt (h.numbers.fresh n (by simp [hn]))
    · exact lt_succ_self _
    · exact lt_succ_of_lt (h.numbers.fresh n (by simp [hn]))
  · intro event msg hmem
    rcases mem_append.mp hmem with hmem | hmem
    · exact h.numbers.same event msg hmem
    · obtain ⟨rfl, rfl⟩ := numbered.inj (mem_singleton.mp hmem)
      rfl
  · intro event msg hmem
    rcases mem_append.mp hmem with hmem | hmem
    · exact .inl hmem
    · obtain ⟨rfl, rfl⟩ := numbered.inj (mem_singleton.mp hmem)
      exact .inr (by rw [hcounter]; exact lt_succ_self _)

theorem inv_numberElsewhere (h : s.Inv) (hok : s.counter + 1 < 2 ^ 64) : s.numberElsewhere.Inv := by
  have hcounter : s.numberElsewhere.counter = s.counter + 1 := fetchAdd_eq hok
  exact ⟨⟨h.numbers.nodup, h.numbers.disjoint, h.numbers.fresh, h.numbers.buffer,
    h.numbers.same⟩, h.ids.mono (hcounter ▸ le_succ _)
    (hcounter ▸ lt_succ_of_lt h.ids.mark) rfl fun _ _ => .inl,
    h.marks.congr rfl rfl rfl rfl⟩

theorem inv_send {before later : List (Publishing Nat)} {event : Event Nat}
    (hs : s.publishing = before ++ .pushed event :: later) (h : s.Inv) :
    (s.send event (before ++ later)).Inv := by
  have hnumbered : (s.send event (before ++ later)).numbered = s.numbered := by
    simp [numbered, send, hs]
  have hout : ∀ n ∈ (s.send event (before ++ later)).out, n ∈ s.out := by
    intro n hn
    rw [mem_out] at hn ⊢
    rcases hn with hn | hn | hn | hn
    · exact .inl hn
    · exact .inr (.inl hn)
    · refine .inr (.inr (.inl ?_))
      rw [hs, filterMap_append, pushed?_cons_pushed]
      simp only [send, filterMap_append, mem_append] at hn
      rcases hn with hn | hn <;> simp [hn]
    · simp only [send, Channel.send] at hn
      split at hn
      · exact .inr (.inr (.inr hn))
      · simp only [map_append, map_cons, map_nil, mem_append, mem_singleton] at hn
        rcases hn with hn | rfl
        · exact .inr (.inr (.inr hn))
        · exact .inr (.inr (.inl (by simp [hs])))
  have hpublishing : ∀ p ∈ (s.send event (before ++ later)).publishing, p ∈ s.publishing := by
    intro p hp
    rw [hs]
    rcases mem_append.mp hp with hp | hp <;> simp [hp]
  exact ⟨h.numbers.mono (hnumbered ▸ .refl _) rfl h.numbers.buffer (fun n hn => .inl (hout n hn))
    fun event msg => hpublishing _,
    h.ids.mono (Nat.le_refl _) h.ids.mark rfl fun event msg hmem => .inl (hpublishing _ hmem),
    h.marks.congr rfl rfl rfl rfl⟩

/-- The buffer without what a push evicts. -/
def kept (s : Polling) : List (EventMessage Nat) :=
  if s.buffer.inner.length ≥ s.buffer.capacity then s.buffer.inner.drop 1 else s.buffer.inner

theorem kept_sublist : s.kept.Sublist s.buffer.inner := by
  unfold kept
  split
  · exact drop_sublist _ _
  · exact List.Sublist.refl _

/-- What is not kept is the oldest entry of a full buffer. -/
theorem mem_kept {x : EventMessage Nat} (hx : x ∈ s.buffer.inner) : x ∈ s.kept ∨
    (s.buffer.capacity ≤ s.buffer.inner.length ∧ x ∈ s.buffer.inner.head?) := by
  unfold kept
  split
  next hfull =>
    cases hinner : s.buffer.inner with
    | nil => simp [hinner] at hx
    | cons y rest =>
      rw [hinner] at hx hfull
      rcases mem_cons.mp hx with rfl | hx
      · exact .inr ⟨hfull, by simp⟩
      · exact .inl hx
  · exact .inl hx

section push
variable {before later : List (Publishing Nat)} {event : Event Nat} {msg : EventMessage Nat}

theorem numbered_of_push (hs : s.publishing = before ++ .numbered event msg :: later) :
    s.numbered = before.filterMap numbered? ++ msg.data :: later.filterMap numbered? := by
  simp [numbered, hs]

theorem numbered_push : (s.push msg (before ++ .pushed event :: later)).numbered =
      before.filterMap numbered? ++ later.filterMap numbered? := by
  simp [numbered, push]

section
variable (hs : s.publishing = before ++ .numbered event msg :: later)
include hs

/-- A push lets nothing out but its own event. -/
theorem mem_out_push
    (h : s.NumbersInv) {n : Nat} (hn : n ∈ (s.push msg (before ++ .pushed event :: later)).out) :
    n ∈ s.out ∨ n = msg.data := by
  have hdata := h.same event msg (by simp [hs])
  rw [mem_out] at hn ⊢
  rcases hn with hn | hn | hn | hn
  · exact .inl (.inl hn)
  · have hn : n ∈ (s.kept ++ [msg]).map data := hn
    simp only [map_append, map_cons, map_nil, mem_append, mem_singleton] at hn
    rcases hn with hn | hn
    · exact .inl (.inr (.inl ((kept_sublist.map _).subset hn)))
    · exact .inr hn
  · simp only [push, filterMap_append, pushed?_cons_pushed, mem_append, mem_cons] at hn
    rw [hs, filterMap_append, pushed?_cons_numbered, hdata]
    rcases hn with hn | hn | hn
    · exact .inl (.inr (.inr (.inl (by simp [hn]))))
    · exact .inr hn
    · exact .inl (.inr (.inr (.inl (by simp [hn]))))
  · exact .inl (.inr (.inr (.inr hn)))

theorem notMem_numbered_push (h : s.NumbersInv) :
    msg.data ∉ (s.push msg (before ++ .pushed event :: later)).numbered := by
  have hnodup := h.nodup
  rw [numbered_of_push hs, nodup_middle, nodup_cons] at hnodup
  rw [numbered_push]
  exact hnodup.1

theorem mem_publishing_push
    {event' : Event Nat} {msg' : EventMessage Nat} (hmem : .numbered event' msg' ∈
      (s.push msg (before ++ .pushed event :: later)).publishing) :
    .numbered event' msg' ∈ s.publishing := by
  rw [hs]
  rcases mem_append.mp hmem with hmem | hmem
  · simp [hmem]
  · rcases mem_cons.mp hmem with hmem | hmem
    · cases hmem
    · simp [hmem]

/-- The event of a push is in the buffer for the first time. -/
theorem numbersInv_push
    (h : s.NumbersInv) : (s.push msg (before ++ .pushed event :: later)).NumbersInv := by
  have hnew : msg.data ∉ s.out := fun hmem => h.disjoint (by simp [numbered_of_push hs]) hmem
  refine h.mono ?_ rfl ?_ (fun n hn => ?_) fun _ _ => mem_publishing_push hs
  · rw [numbered_of_push hs, numbered_push]
    exact (List.Sublist.refl _).append (sublist_cons_self _ _)
  · show ((s.kept ++ [msg]).map _).Nodup
    rw [map_append, nodup_append]
    refine ⟨h.buffer.sublist (kept_sublist.map _), by simp, fun n hn m hm => ?_⟩
    rintro rfl
    refine hnew ?_
    have hn := (kept_sublist.map data).subset hn
    rw [map_singleton, mem_singleton] at hm
    rw [← hm, mem_out]
    exact .inr (.inl hn)
  · rcases mem_out_push hs h hn with hn | rfl
    · exact .inl hn
    · exact .inr ⟨by simp [numbered_of_push hs], notMem_numbered_push hs h⟩

theorem inv_push (hok : s.PollGuard (.push msg)) (h : s.Inv) :
    (s.push msg (before ++ .pushed event :: later)).Inv := by
  obtain ⟨hfresh, hevicts⟩ := hok
  have hmem : Publishing.numbered event msg ∈ s.publishing := by simp [hs]
  have hnew : msg.data ∉ s.given.map (·.data) := by
    intro hgiven
    have hnumbered : msg.data ∈ s.numbered := by simp [numbered, hs]
    exact h.numbers.disjoint hnumbered (mem_out.mpr (.inl hgiven))
  have hwanted : (s.push msg (before ++ .pushed event :: later)).wanted =
      s.kept.filter s.wants ++ [msg].filter s.wants := by
    rw [← filter_append]
    rfl
  -- an entry of the new buffer is an old one or the new one
  have hentry : ∀ x ∈ (s.push msg (before ++ .pushed event :: later)).wanted,
      x ∈ s.wanted ∨ (x = msg ∧ s.wants msg = true) := by
    intro x hx
    rw [hwanted, mem_append] at hx
    rcases hx with hx | hx
    · exact .inl ((kept_sublist.filter _).subset hx)
    · obtain ⟨hx, hwants⟩ := mem_filter.mp hx
      rw [mem_singleton.mp hx] at hwants ⊢
      exact .inr ⟨rfl, hwants⟩
  refine ⟨numbersInv_push hs h.numbers, ⟨h.ids.mark, ?_, ?_⟩,
    ⟨h.marks.increasing, h.marks.le_mark, h.marks.once, ?_, ?_, ?_, ?_⟩⟩
  · intro x hx
    have hx : x ∈ s.kept ++ [msg] := hx
    rcases mem_append.mp hx with hx | hx
    · exact h.ids.buffer x (kept_sublist.subset hx)
    · rw [mem_singleton.mp hx]
      exact h.ids.publishing event msg hmem
  · exact fun event' msg' hmem' => h.ids.publishing event' msg' (mem_publishing_push hs hmem')
  · rw [hwanted, map_append, pairwise_append]
    refine ⟨h.marks.sorted.sublist ((kept_sublist.filter _).map _), ?_, ?_⟩
    · cases hw : s.wants msg <;> simp [hw]
    · intro a ha b hb
      obtain ⟨x, hx, rfl⟩ := mem_map.mp ha
      obtain ⟨y, hy, rfl⟩ := mem_map.mp hb
      obtain ⟨hy, hwants⟩ := mem_filter.mp hy
      rw [mem_singleton.mp hy] at hwants ⊢
      exact (hfresh hwants).2 x ((kept_sublist.filter _).subset hx)
  · intro x hx hle
    rcases hentry x hx with hx | ⟨rfl, hwants⟩
    · exact h.marks.behind x hx hle
    · exact absurd hle (Nat.not_le_of_lt (hfresh hwants).1)
  · intro x hx hlt
    rcases hentry x hx with hx | ⟨rfl, -⟩
    · exact h.marks.ahead x hx hlt
    · exact hnew
  · intro n hn
    rcases h.marks.seen n hn with hgiven | hbuffer
    · exact .inl hgiven
    · obtain ⟨x, hx, rfl⟩ := mem_map.mp hbuffer
      obtain ⟨hinner, hwants⟩ := mem_filter.mp hx
      rcases mem_kept hinner with hkept | ⟨hfull, hhead⟩
      · refine .inr (mem_map.mpr ⟨x, ?_, rfl⟩)
        rw [hwanted]
        exact mem_append_left _ (mem_filter.mpr ⟨hkept, hwants⟩)
      · rcases Nat.lt_or_ge s.mark x.id with hlt | hle
        · exact absurd hn (hevicts hfull x hhead hwants hlt)
        · exact .inl (h.marks.behind x hx hle)

end

end push

/-! ### The handler -/

theorem le_foldl_max (ids : List Nat) (a : Nat) :
    a ≤ ids.foldl max a ∧ ∀ n ∈ ids, n ≤ ids.foldl max a := by
  induction ids generalizing a with
  | nil => simp
  | cons i ids ih =>
    obtain ⟨hle, hall⟩ := ih (max a i)
    rw [foldl_cons]
    refine ⟨by omega, ?_⟩
    simp only [forall_mem_cons]
    exact ⟨by omega, hall⟩

theorem foldl_max_lt {ids : List Nat} {a b : Nat} (ha : a < b) (h : ∀ n ∈ ids, n < b) :
    ids.foldl max a < b := by
  induction ids generalizing a with
  | nil => exact ha
  | cons i ids ih =>
    rw [foldl_cons]
    refine ih ?_ fun n hn => h n (mem_cons_of_mem _ hn)
    have := h i (by simp)
    omega

/-- A step of the handler: the bus keeps everything but the counter. -/
structure SameBus (s s' : Polling) : Prop where
  buffer : s'.buffer = s.buffer
  publishing : s'.publishing = s.publishing
  channel : s'.channel = s.channel
  published : s'.published = s.published
  filter : s'.filter = s.filter
  counter : s.counter ≤ s'.counter
  seen : ∀ n ∈ s'.seen, n ∈ s.seen ∨ n ∈ s.wanted.map (·.data)

theorem SameBus.wanted (h : SameBus s s') : s'.wanted = s.wanted := by
  have hwants : s'.wants = s.wants := by
    funext msg
    rw [wants, wants, h.filter]
  rw [Polling.wanted, Polling.wanted, hwants, h.buffer]

/-- The handler gives events beyond the mark, and the mark moves on. What it leaves out is beyond
the new mark. -/
theorem Inv.give (h : s.Inv) (hbus : SameBus s s') (hgiven : s'.given = s.given ++ events)
    (hmark : s'.mark = (events.map (·.id)).foldl max s.mark)
    (hsorted : (events.map (·.id)).Pairwise (· < ·))
    (hbeyond : ∀ x ∈ events, s.mark < x.id ∧ x.id < s'.counter)
    (hnodup : (events.map (·.data)).Nodup)
    (hout : ∀ x ∈ events, x.data ∈ s.out ∧ x.data ∉ s.given.map (·.data))
    (hbehind : ∀ x ∈ s.wanted, s.mark < x.id → x.id ≤ (events.map (·.id)).foldl max s.mark →
      x.data ∈ events.map (·.data))
    (hahead : ∀ x ∈ s.wanted, (events.map (·.id)).foldl max s.mark < x.id →
      x.data ∉ events.map (·.data)) : s'.Inv := by
  have hwanted := hbus.wanted
  obtain ⟨hbuffer, hpublishing, hchannel, hpublished, -, hcounter, hseen⟩ := hbus
  have hnumbered : s'.numbered = s.numbered := by rw [numbered, numbered, hpublishing]
  have hout' : ∀ n ∈ s'.out, n ∈ s.out := by
    intro n hn
    rw [mem_out, hgiven, hbuffer, hpublishing, hchannel, map_append, mem_append] at hn
    rcases hn with (hn | hn) | hn
    · exact mem_out.mpr (.inl hn)
    · obtain ⟨x, hx, rfl⟩ := mem_map.mp hn
      exact (hout x hx).1
    · exact mem_out.mpr (.inr hn)
  obtain ⟨hle, hle'⟩ := le_foldl_max (events.map (·.id)) s.mark
  rw [← hmark] at hle hle' hbehind hahead
  refine ⟨h.numbers.mono (hnumbered ▸ .refl _) hpublished (hbuffer ▸ h.numbers.buffer)
    (fun n hn => .inl (hout' n hn)) fun _ _ => hpublishing ▸ id,
    h.ids.mono hcounter ?_ (by rw [hbuffer]) fun _ _ hmem => .inl (hpublishing ▸ hmem),
    ⟨?_, ?_, ?_, ?_, ?_, ?_, ?_⟩⟩
  · rw [hmark]
    refine foldl_max_lt (Nat.lt_of_lt_of_le h.ids.mark hcounter) fun n hn => ?_
    obtain ⟨x, hx, rfl⟩ := mem_map.mp hn
    exact (hbeyond x hx).2
  · rw [hgiven, map_append, pairwise_append]
    refine ⟨h.marks.increasing, hsorted, fun a ha b hb => ?_⟩
    obtain ⟨x, hx, rfl⟩ := mem_map.mp ha
    obtain ⟨y, hy, rfl⟩ := mem_map.mp hb
    exact Nat.lt_of_le_of_lt (h.marks.le_mark x hx) (hbeyond y hy).1
  · rw [hgiven]
    intro x hx
    rcases mem_append.mp hx with hx | hx
    · exact Nat.le_trans (h.marks.le_mark x hx) hle
    · exact hle' x.id (mem_map_of_mem hx)
  · rw [hgiven, map_append, nodup_append]
    refine ⟨h.marks.once, hnodup, fun a ha b hb => ?_⟩
    rintro rfl
    obtain ⟨y, hy, rfl⟩ := mem_map.mp hb
    exact (hout y hy).2 ha
  · rw [hwanted]
    exact h.marks.sorted
  · rw [hwanted, hgiven, map_append]
    intro x hx hxle
    rcases Nat.lt_or_ge s.mark x.id with hlt | hge
    · exact mem_append_right _ (hbehind x hx hlt hxle)
    · exact mem_append_left _ (h.marks.behind x hx hge)
  · rw [hwanted, hgiven, map_append]
    intro x hx hlt hmem
    rcases mem_append.mp hmem with hmem | hmem
    · exact h.marks.ahead x hx (Nat.lt_of_le_of_lt hle hlt) hmem
    · exact hahead x hx hlt hmem
  · rw [hwanted, hgiven, map_append]
    intro n hn
    rcases hseen n hn with hn | hn
    · rcases h.marks.seen n hn with hn | hn
      · exact .inl (mem_append_left _ hn)
      · exact .inr hn
    · exact .inr hn

/-- A step of the handler that gives the client nothing new. -/
theorem Inv.congr (h : s.Inv) (hbus : SameBus s s') (hgiven : s'.given = s.given)
    (hmark : s'.mark = s.mark) : s'.Inv := by
  refine @Inv.give s s' [] h hbus (by simpa using hgiven) hmark ?_ ?_ ?_ ?_ ?_ ?_
  all_goals simp

theorem inv_subscribe (hs : s.handler = .foundNothing limit) (h : s.Inv) :
    (s.subscribe limit).Inv := by
  refine h.congr ⟨rfl, rfl, rfl, rfl, rfl, Nat.le_refl _, fun n hn => .inl hn⟩ ?_ ?_
  · simp [given, returned, collected, subscribe, hs]
  · simp [mark, collected, subscribe, hs]

/-- The answer of a wait: what was collected becomes what was returned. -/
theorem inv_stop {next : Nat}
    (hs : s.handler = .waiting limit next events) (h : s.Inv) : (s.answer events).Inv := by
  refine h.congr ⟨rfl, rfl, rfl, rfl, rfl, Nat.le_refl _, fun n hn => .inl hn⟩ ?_ ?_
  · simp [given, returned, collected, answer, hs]
  · simp [mark, collected, answer, hs]

/-- The handler looks for the wanted events beyond the last id. -/
theorem collect_eq : s.buffer.collect s.filter s.since =
    s.wanted.filter fun msg => s.since < msg.id := by
  simp only [EventBuffer.collect, EventBuffer.since, wanted, filter_filter]
  refine filter_congr fun msg _ => ?_
  rw [Bool.and_comm]
  rfl

/-- An answer from the buffer is the first part of what is ahead. -/
theorem inv_poll {limit : Option Nat} (hs : s.handler = .idle) (h : s.Inv) :
    (s.poll limit).Inv := by
  have hcollected : s.collected = [] := by simp [collected, hs]
  have hmark : s.mark = s.since := by simp [mark, hcollected]
  have hseen : ∀ n ∈ s.seen ++ (s.buffer.inner.filter s.wants).map data,
      n ∈ s.seen ∨ n ∈ s.wanted.map (·.data) := fun n hn => mem_append.mp hn
  unfold poll
  simp only
  split
  · refine h.congr ⟨rfl, rfl, rfl, rfl, rfl, Nat.le_refl _, hseen⟩ ?_ ?_
    · simp [given, returned, collected, hs]
    · simp [mark, collected, hs]
  · rw [collect_eq]
    have hmem : ∀ x, x ∈ s.wanted.filter (s.since < ·.id) ↔ x ∈ s.wanted ∧ s.mark < x.id := by
      simp [hmark]
    have hahead := filter_sublist (p := (decide <| s.since < EventMessage.id ·)) (l := s.wanted)
    have hsorted := h.marks.sorted.sublist (hahead.map _)
    generalize s.wanted.filter (s.since < ·.id) = ahead at hmem hahead hsorted
    have htake : ∀ x ∈ ahead.take (pollLimit limit), x ∈ s.wanted ∧ s.mark < x.id :=
      fun x hx => (hmem x).mp (mem_of_mem_take hx)
    have hbuffer : ∀ x ∈ s.wanted, x ∈ s.buffer.inner := fun x hx => (mem_filter.mp hx).1
    refine @Inv.give s _ (ahead.take (pollLimit limit)) h
      ⟨rfl, rfl, rfl, rfl, rfl, Nat.le_refl _, hseen⟩ ?_ ?_ ?_ ?_ ?_ ?_ ?_ ?_
    · simp [given, returned, collected, answer, hs]
    · simp [mark, collected, answer, hs]
    · exact hsorted.sublist ((take_sublist _ _).map _)
    · exact fun x hx => ⟨(htake x hx).2, h.ids.buffer x (hbuffer x (htake x hx).1)⟩
    · exact h.numbers.buffer.sublist (((take_sublist _ _).trans (hahead.trans filter_sublist)).map _)
    · intro x hx
      obtain ⟨hx, hlt⟩ := htake x hx
      exact ⟨mem_out.mpr (.inr (.inl (mem_map_of_mem (hbuffer x hx)))), h.marks.ahead x hx hlt⟩
    · -- what is left out comes after all that is taken
      intro x hx hlt hle
      have hx := (hmem x).mpr ⟨hx, hlt⟩
      rw [← take_append_drop (pollLimit limit) ahead] at hx hsorted
      rcases mem_append.mp hx with hx | hx
      · exact mem_map_of_mem hx
      · refine absurd hle (Nat.not_le_of_lt (foldl_max_lt hlt fun n hn => ?_))
        rw [map_append, pairwise_append] at hsorted
        exact hsorted.2.2 _ hn _ (mem_map_of_mem hx)
    · intro x hx hlt hmem
      obtain ⟨y, hy, hdata⟩ := mem_map.mp hmem
      obtain rfl : y = x := inj_on_of_nodup_map h.numbers.buffer
        (hbuffer y (htake y hy).1) (hbuffer x hx) hdata
      exact absurd hlt (Nat.not_lt_of_le ((le_foldl_max _ _).2 _ (mem_map_of_mem hy)))

/-- An event that is received gets a new id past all others. -/
theorem inv_receive {next next' : Nat} {event : Event Nat}
    {time : Nat} (hs : s.handler = .waiting limit next events)
    (hrecv : s.channel.recv next = (some (.value event), next'))
    (hok : s.PollGuard (.receive event time)) (h : s.Inv) :
    (s.receive limit next' events event time).Inv := by
  obtain ⟨hwrap, hnew, honly⟩ := hok
  have hcollected : s.collected = events := by simp [collected, hs]
  have hsince : s.since ≤ s.mark := (le_foldl_max _ _).1
  have hcounter : (s.receive limit next' events event time).counter = s.counter + 1 :=
    fetchAdd_eq hwrap
  have hid : ¬ s.counter ≤ s.since := by
    have := h.ids.mark
    omega
  have hbus : SameBus s (s.receive limit next' events event time) :=
    ⟨rfl, rfl, rfl, rfl, rfl, hcounter ▸ le_succ _, fun n hn => .inl hn⟩
  cases hwants : s.wants (convertEventToMessage s.counter time event) with
  | false =>
    have hcol : (s.receive limit next' events event time).collected = events := by
      simp only [collected, receive, hwants, Bool.false_eq_true, if_false, ite_self]
    refine h.congr hbus ?_ ?_
    · rw [given, hcol, given, hcollected]
      rfl
    · rw [mark, hcol, mark, hcollected]
      rfl
  | true =>
    have hcol : (s.receive limit next' events event time).collected =
        events ++ [convertEventToMessage s.counter time event] := by
      simp only [collected, receive, hwants, if_true]
      exact if_neg hid
    have hmark : (s.receive limit next' events event time).mark = s.counter := by
      simp only [mark, hcol, map_append, foldl_append]
      have := h.ids.mark
      rw [mark, hcollected] at this
      simp only [map_cons, map_nil, foldl_cons, foldl_nil, convertEventToMessage]
      exact Nat.max_eq_right (Nat.le_of_lt this)
    refine @Inv.give s _ [convertEventToMessage s.counter time event] h hbus ?_ ?_ ?_ ?_ ?_ ?_ ?_ ?_
    · rw [given, hcol, given, hcollected, append_assoc]
      rfl
    · rw [hmark]
      exact (Nat.max_eq_right (Nat.le_of_lt h.ids.mark)).symm
    · simp
    · intro x hx
      rw [mem_singleton.mp hx, hcounter]
      exact ⟨h.ids.mark, lt_succ_self _⟩
    · simp
    · intro x hx
      rw [mem_singleton.mp hx]
      refine ⟨mem_out.mpr (.inr (.inr (.inr ?_))), hnew⟩
      exact mem_map_of_mem (Channel.mem_sent_of_recv hrecv)
    · intro x hx hlt _
      rw [honly x hx hlt]
      simp [convertEventToMessage]
    · intro x hx hlt
      have hle : s.counter < x.id := Nat.lt_of_le_of_lt (Nat.le_max_right _ _) hlt
      exact absurd hle (Nat.not_lt_of_lt (h.ids.buffer x (mem_filter.mp hx).1))

theorem inv_step (hok : s.PollGuard e) (hstep : PollStep s e s') (h : s.Inv) : s'.Inv := by
  cases hstep with
  | number => exact inv_number h hok
  | push hs => exact inv_push hs hok h
  | send hs => exact inv_send hs h
  | numberElsewhere => exact inv_numberElsewhere h hok
  | poll hs => exact inv_poll hs h
  | subscribe hs => exact inv_subscribe hs h
  | receive hs _ hrecv => exact inv_receive hs hrecv hok h
  | stop hs => exact inv_stop hs h

end Polling

/-- In a run all of whose steps meet the guard, the client gets every event its polls see in the
buffer exactly once, in the order of the ids. -/
theorem guarded_polls_deliver {s s' : Polling} (hs : s.IsFresh)
    (h : Reach PollStep Polling.PollGuard s s') : s'.Delivers :=
  (h.invariant hs.inv Polling.inv_step).delivers

/-- A bus as it is created, and a client that takes every event. -/
def freshPolling : Polling where
  counter := 1
  buffer := ⟨1000, []⟩
  channel := ⟨1024, [], 1⟩
  publishing := []
  published := 0
  filter := none
  handler := .idle
  since := 0
  answers := []
  seen := []

theorem freshPolling_isFresh : freshPolling.IsFresh :=
  ⟨by decide, rfl, rfl, rfl, rfl, rfl, rfl, rfl, rfl⟩

/-- Two events are numbered before either is in the buffer, and a third one after a poll. -/
theorem guarded_polls_deliver_three : ∃ s, Reach PollStep Polling.PollGuard freshPolling s ∧
    s.answers.map (·.map (·.id)) = [[1, 2], [3]] ∧ s.Delivers := by
  have hnumbered : Reach PollStep Polling.PollGuard freshPolling _ :=
    (Reach.refl.next (@number _ .folderSummary 0)
      (show freshPolling.counter + 1 < 2 ^ 64 by decide)).next (@number _ .itemFinished 0)
      (show freshPolling.counter + 1 + 1 < 2 ^ 64 by decide)
  have hpolled := ((hnumbered.next (@push _ [] _ _ [_] rfl) ⟨by decide, by decide⟩).next
    (@push _ [_] _ _ [] rfl) ⟨by decide, by decide⟩).next (@poll _ (some 2) rfl) trivial
  have h := ((hpolled.next (@number _ .folderSummary 1)
    (show freshPolling.counter + 1 + 1 + 1 < 2 ^ 64 by decide)).next
    (@push _ [_, _] _ _ [] rfl) ⟨by decide, by decide⟩).next (@poll _ none rfl) trivial
  exact ⟨_, h, by decide, guarded_polls_deliver freshPolling_isFresh h⟩

/-- Two events are published while the client waits. It receives the first one under a new id that
is larger than the id of the second one, and never gets the second one. -/
theorem polls_lose_event : freshPolling.IsFresh ∧
    ∃ s, Reach PollStep (fun _ _ => True) freshPolling s ∧ 1 ∈ s.seen ∧ ¬ s.Delivers := by
  refine ⟨freshPolling_isFresh, _, Reach.refl.go (@poll _ none rfl)
    |>.go (@subscribe _ _ rfl)
    |>.go (@number _ .folderSummary 0)
    |>.go (@push _ [] _ _ [] rfl)
    |>.go (@send _ [] _ [] rfl)
    |>.go (@number _ .itemFinished 0)
    |>.go (@push _ [] _ _ [] rfl)
    |>.go (@receive _ _ _ _ _ _ 0 rfl (by decide) rfl)
    |>.go (@stop _ _ _ _ rfl)
    |>.go (@poll _ none rfl), by decide, fun h => ?_⟩
  have hlost := h.complete 1 (by decide)
  revert hlost
  decide

end Syncthing
