import Syncthing.Net.RelaySessions

/-! The handlers of `relay/server.rs` and its tables. A client leaves the table by its device id,
whichever of its connections ends. A session key leaves it after both of its peers have been
answered. -/
namespace Syncthing.Relay

open Transition Function KeyedList Server

/-- The table of clients, how far the handler of each connection has come, and the connection that
each device has registered last. -/
structure Registrations where
  server : Server
  stage : Nat → Option (DeviceId × Phase)
  newest : DeviceId → Option Nat

namespace Registrations

inductive Event where
  | connect (c : Nat)
  | check (c : Nat)
  | register (c : Nat)
  | pingFails (c : Nat)
  | disconnect (c : Nat)

inductive Step (r : Registrations) : Event → Registrations → Prop where
  | connect {c d} (h : r.stage c = none) :
    Step r (.connect c) { r with stage := update r.stage c (some (d, .accepted)) }
  | check {c d} (h : r.stage c = some (d, .accepted)) :
    Step r (.check c) { r with
      stage := update r.stage c (some (d, if r.server.isFull then .ended else .admitted)) }
  | register {c d} (h : r.stage c = some (d, .admitted)) :
    Step r (.register c) ⟨r.server.insertClient ⟨d, c⟩,
      update r.stage c (some (d, .serving)), update r.newest d (some c)⟩
  | pingFails {c d} (h : r.stage c = some (d, .serving)) :
    Step r (.pingFails c) { r with server := r.server.removeClient d }
  | disconnect {c d} (h : r.stage c = some (d, .serving)) : Step r (.disconnect c) { r with
      server := r.server.removeClient d, stage := update r.stage c (some (d, .ended)) }

variable {r r' : Registrations} {e : Event} {session : Listener}

def new (session : Listener) : Registrations := ⟨.new session, fun _ => none, fun _ => none⟩

/-- The newest connection of a device is served. -/
def Holds (r : Registrations) (d : DeviceId) (c : Nat) : Prop :=
  r.newest d = some c ∧ r.stage c = some (d, .serving)

/-- There is room for each client that registers, a connection that another one has followed does
not end before it, and no ping of a device fails that has its newest connection. -/
def Guard (r : Registrations) : Event → Prop
  | .register _ => r.server.isFull = false
  | .pingFails c => ∀ d k, r.stage c = some (d, .serving) → ¬ r.Holds d k
  | .disconnect c => ∀ d k, r.stage c = some (d, .serving) → r.Holds d k → k = c
  | _ => True

/-- A client is registered while its newest connection is served, and there are not too many. -/
structure Stable (r : Registrations) : Prop where
  registered : ∀ d c, r.Holds d c → r.server.clients.find? d = some ⟨d, c⟩
  room : r.server.clients.entries.length ≤ maxClients

theorem stable_step (hg : Guard r e) (hs : Step r e r') (h : Stable r) : Stable r' := by
  obtain ⟨hregistered, hroom⟩ := h
  have herase : ∀ d, (r.server.removeClient d).clients.entries.length ≤ maxClients :=
    fun d => Nat.le_trans (List.length_filter_le _ _) hroom
  cases hs with
  | connect | check => exact ⟨by grind [Holds], hroom⟩
  | @register c d hc =>
    have hkeys : (r.server.clients.upsert ⟨d, c⟩).entries.map Client.deviceId = _ :=
      keys_upsertList _ _
    have hlength := congrArg List.length hkeys
    simp only [Guard, isFull, decide_eq_false_iff_not] at hg
    constructor
    · grind [Holds, insertClient, find?_upsert]
    · grind [insertClient]
  | pingFails | disconnect =>
    simp only [Guard] at hg
    exact ⟨by grind [Holds, removeClient, find?_erase], herase _⟩

/-- In every such run a client stays registered until its newest connection ends. -/
theorem registration_stable (h : Reach Step Guard (new session) r) : Stable r :=
  h.invariant ⟨by simp [Holds, new], Nat.zero_le _⟩ stable_step

theorem registration_stable_again : ∃ r, Reach Step Guard (new someListener) r ∧
    r.Holds (deviceOf 1) 1 ∧ r.stage 0 = some (deviceOf 1, .serving) ∧ Stable r := by
  have h : Reach Step Guard (new someListener) (new someListener) := .refl
  have h := h.next (.connect (c := 0) (d := deviceOf 1) rfl) trivial
    |>.next (.check (c := 0) rfl) trivial |>.next (.register (c := 0) rfl) rfl
    |>.next (.connect (c := 1) (d := deviceOf 1) rfl) trivial
    |>.next (.check (c := 1) rfl) trivial |>.next (.register (c := 1) rfl) rfl
  exact ⟨_, h, ⟨rfl, rfl⟩, rfl, registration_stable h⟩

/-- A device connects again, and then its first connection ends. -/
theorem registration_lost : ∃ r, Reach Step (fun _ _ => True) (new someListener) r ∧
    r.Holds (deviceOf 1) 1 ∧ r.server.clients.find? (deviceOf 1) = none :=
  ⟨_, Reach.refl.go (.connect (c := 0) (d := deviceOf 1) rfl) |>.go (.check (c := 0) rfl)
    |>.go (.register (c := 0) rfl) |>.go (.connect (c := 1) (d := deviceOf 1) rfl)
    |>.go (.check (c := 1) rfl) |>.go (.register (c := 1) rfl) |>.go (.disconnect (c := 0) rfl),
    ⟨rfl, rfl⟩, rfl⟩

end Registrations

/-! ### The tables of a system -/

section
variable {s s' : System} {c : Nat} {conn conn' : Conn}

@[simp] theorem System.tables_onConn {f : Conn → Conn} : (s.onConn c f).server = s.server ∧
    (s.onConn c f).sessions = s.sessions ∧ (s.onConn c f).forwards = s.forwards := by
  unfold System.onConn
  split <;> exact ⟨rfl, rfl, rfl⟩

theorem Server.clients_handleMessage {server : Server} {d : DeviceId} {key : SessionKey}
    {m : MessageType × Bytes} : (server.handleMessage c d key m).1.clients = server.clients := by
  unfold handleMessage handleConnectRequest
  repeat' split
  all_goals rfl

theorem Server.clients_joinSession {server : Server} {key : Bytes} :
    (server.joinSession c key).1.clients = server.clients := by
  unfold joinSession
  repeat' split
  all_goals rfl

/-- The handler of a connection is where it was. -/
def Conn.SameStage (conn conn' : Conn) : Prop :=
  conn'.deviceId = conn.deviceId ∧ conn'.phase = conn.phase ∧ conn'.pinging = conn.pinging

namespace Registrations

/-- The table of clients and the handlers of a system, of which only some are pinged. -/
structure Shows (s : System) (r : Registrations) : Prop where
  clients : r.server.clients = s.server.clients
  stage : ∀ c, r.stage c = (s.conns c).map fun conn => (conn.deviceId, conn.phase)
  pinging : ∀ c conn, s.conns c = some conn → conn.pinging = true → conn.phase = .serving

variable {r : Registrations}

theorem Shows.setConn (h : Shows s r) (hconn : s.conns c = some conn)
    (hsame : conn.SameStage conn') : Shows (s.setConn c conn') r := by
  obtain ⟨hdevice, hphase, hpinging⟩ := hsame
  refine ⟨h.clients, fun k => ?_, fun k other hother hpinged => ?_⟩
  · by_cases hk : k = c
    · rw [hk, System.conns_setConn_self, h.stage, hconn, Option.map_some, Option.map_some, hdevice,
        hphase]
    · rw [System.conns_setConn_of_ne s hk, h.stage]
  · by_cases hk : k = c
    · rw [hk, System.conns_setConn_self] at hother
      cases hother
      rw [hphase]
      exact h.pinging c conn hconn (hpinging ▸ hpinged)
    · rw [System.conns_setConn_of_ne s hk] at hother
      exact h.pinging k other hother hpinged

theorem Shows.onConn {f : Conn → Conn} (h : Shows s r) (hf : ∀ conn : Conn, conn.SameStage (f conn)) :
    Shows (s.onConn c f) r := by
  unfold System.onConn
  split
  · exact h
  next hconn => exact h.setConn hconn (hf _)

theorem Shows.send (h : Shows s r) (m : Message) : Shows (s.send c m) r :=
  h.onConn fun conn => by split <;> exact ⟨rfl, rfl, rfl⟩

/-- The handler of a connection goes on to another stage. -/
theorem Shows.advance {server : Server} {r' : Registrations} (h : Shows s r)
    (hclients : r'.server.clients = server.clients)
    (hstage : r'.stage = update r.stage c (some (conn.deviceId, conn.phase)))
    (hpinging : conn.pinging = true → conn.phase = .serving) :
    Shows { s.setConn c conn with server } r' := by
  refine ⟨hclients, fun k => ?_, fun k other hother hpinged => ?_⟩
  · change r'.stage k = ((s.setConn c conn).conns k).map _
    by_cases hk : k = c
    · rw [hstage, hk, update_self, System.conns_setConn_self, Option.map_some]
    · rw [hstage, update_of_ne hk, System.conns_setConn_of_ne s hk, h.stage]
  · change (s.setConn c conn).conns k = some other at hother
    by_cases hk : k = c
    · rw [hk, System.conns_setConn_self] at hother
      cases hother
      exact hpinging hpinged
    · rw [System.conns_setConn_of_ne s hk] at hother
      exact h.pinging k other hother hpinged

/-- What a step of the system does to the table of clients is a step of the registrations, or
nothing. -/
theorem Shows.step {e : RelayEvent} (h : Shows s r) (hs : RelayStep s e s') :
    ∃ r', Reach Step (fun _ _ => True) r r' ∧ Shows s' r' := by
  obtain ⟨⟩ := hs
  have hstay : ∀ {t}, Shows t r → ∃ r', Reach Step (fun _ _ => True) r r' ∧ Shows t r' :=
    fun h => ⟨r, .refl, h⟩
  have hstage : ∀ {c conn}, s.conns c = some conn → r.stage c = some (conn.deviceId, conn.phase) :=
    fun hconn => by rw [h.stage, hconn, Option.map_some]
  have hfull : r.server.isFull = s.server.isFull := by rw [isFull, isFull, h.clients]
  cases e with
  | connect c d addr =>
    change ∃ r', _ ∧ Shows (s.connect c d addr) r'
    unfold System.connect
    split
    · exact hstay h
    next hnone =>
      have hnew : r.stage c = none := by rw [h.stage, hnone, Option.map_none]
      exact ⟨_, Reach.refl.go (.connect hnew), h.advance h.clients rfl nofun⟩
  | checkCapacity c =>
    change ∃ r', _ ∧ Shows (s.checkCapacity c) r'
    unfold System.checkCapacity
    split
    · exact hstay h
    next conn hconn =>
      split
      · exact hstay h
      next hphase =>
        have hcheck := Step.check (r := r) (c := c) (d := conn.deviceId)
          (by rw [hstage hconn, not_not.mp hphase])
        have hpinged : conn.pinging ≠ true := fun hp =>
          absurd ((h.pinging c conn hconn hp).symm.trans (not_not.mp hphase)) (by decide)
        refine ⟨_, Reach.refl.go hcheck, ?_⟩
        rw [hfull]
        split
        · refine Shows.send ?_ _
          exact h.advance h.clients rfl fun hp => absurd hp hpinged
        · exact h.advance h.clients rfl fun hp => absurd hp hpinged
  | register c =>
    change ∃ r', _ ∧ Shows (s.register c) r'
    unfold System.register
    split
    · exact hstay h
    next conn hconn =>
      split
      next hphase =>
        have hregister := Step.register (r := r) (c := c) (d := conn.deviceId)
          (by rw [hstage hconn, hphase])
        exact ⟨_, Reach.refl.go hregister, h.advance
          (by simp only [insertClient, h.clients]) rfl fun _ => rfl⟩
      · exact hstay h
  | pingFails c =>
    change ∃ r', _ ∧ Shows (s.pingFails c) r'
    unfold System.pingFails
    split
    · exact hstay h
    next conn hconn =>
      split
      next hpinging =>
        have hphase := h.pinging c conn hconn hpinging
        have hfails := Step.pingFails (r := r) (c := c) (d := conn.deviceId)
          (by rw [hstage hconn, hphase])
        refine ⟨_, Reach.refl.go hfails, h.advance (by simp only [removeClient, h.clients]) ?_ nofun⟩
        exact (update_eq_self_iff.mpr (hstage hconn).symm).symm
      · exact hstay h
  | disconnect c =>
    change ∃ r', _ ∧ Shows (s.disconnect c) r'
    unfold System.disconnect
    split
    · exact hstay h
    next conn hconn =>
      split
      next hphase =>
        have hends := Step.disconnect (r := r) (c := c) (d := conn.deviceId)
          (by rw [hstage hconn, hphase.1])
        exact ⟨_, Reach.refl.go hends, h.advance (by simp only [removeClient, h.clients]) rfl nofun⟩
      · exact hstay h
  | tick c =>
    refine hstay ?_
    change Shows (s.tick c) r
    unfold System.tick
    repeat' split
    all_goals first | exact h | exact h.send _
  | handle c key =>
    refine hstay ?_
    change Shows (s.handle c key) r
    unfold System.handle
    split
    · exact h
    next conn hconn =>
      split
      · exact h
      next message buffered _ =>
        split
        · have hset := fun writes =>
            @Shows.setConn s c conn { conn with buffered, writes } r h hconn ⟨rfl, rfl, rfl⟩
          exact ⟨h.clients.trans clients_handleMessage.symm, (hset _).stage, (hset _).pinging⟩
        · exact h
  | write c =>
    refine hstay ?_
    change Shows (s.write c) r
    unfold System.write
    split
    · exact h
    next conn hconn =>
      split
      · exact h
      · refine Shows.send ?_ _
        exact h.setConn hconn ⟨rfl, rfl, rfl⟩
  | read | call | receive | endOfStream | timeOut | drop =>
    refine hstay (h.onConn fun conn => ?_)
    unfold Conn.SameStage
    simp only [Conn.read, Conn.startCall, Conn.receive, Conn.endOfStream, Conn.timeOut, Conn.drop]
    repeat' split
    all_goals first | exact ⟨rfl, rfl, rfl⟩ | exact ⟨trivial, trivial, trivial⟩
  | join a data =>
    refine hstay ?_
    change Shows (s.join a data) r
    unfold System.join
    split
    · exact h
    · exact ⟨h.clients, h.stage, h.pinging⟩
    next key _ _ =>
      have hclients := @clients_joinSession a s.server key
      split <;> rename_i hjoin <;> rw [hjoin] at hclients
      · exact ⟨h.clients, h.stage, h.pinging⟩
      all_goals exact ⟨h.clients.trans hclients.symm, h.stage, h.pinging⟩
  | waitEnds | pair | pairFails =>
    refine hstay ?_
    simp only [System.apply, System.waitEnds, System.pair, System.pairFails]
    split <;> exact ⟨h.clients, h.stage, h.pinging⟩

/-- The table of clients of every reachable system is that of some run of the registrations. -/
theorem shows_of_reach {session : Listener}
    (h : Reach RelayStep (fun _ _ => True) (System.new session) s) :
    ∃ r, Reach Step (fun _ _ => True) (new session) r ∧ Shows s r :=
  h.simulate ⟨rfl, fun _ => rfl, nofun⟩ fun hs hshows => hshows.step hs

end Registrations

end

/-- The session keys, the handlers of session connections, and the pairs that are forwarded to each
other with their keys. -/
structure Pairings where
  server : Server
  handler : Nat → Option SessionHandler
  forwards : List (Bytes × Nat × Nat)

namespace Pairings

inductive Event where
  | draw (k : Bytes)
  | join (a : Nat) (k : Bytes)
  | waitEnds (a : Nat)
  | pair (a : Nat)
  | pairFails (a : Nat)

variable (p : Pairings) (a : Nat)

def setHandler (h : SessionHandler) : Nat → Option SessionHandler :=
  update p.handler a (some h)

def join (k : Bytes) : Pairings :=
  match p.server.joinSession a k with
  | (_, none) => { p with handler := p.setHandler a .done }
  | (server, some .phase1) => { p with server, handler := p.setHandler a (.waiting k) }
  | (server, some (.phase2 f)) => { p with server, handler := p.setHandler a (.pairing k f) }

inductive Step : Event → Pairings → Prop where
  | draw {k i j} :
    Step (.draw k) { p with server := p.server.setSession k (some ⟨i, j, none⟩) }
  | join {a k} (h : p.handler a = none) : Step (.join a k) (p.join a k)
  | waitEnds {a k} (h : p.handler a = some (.waiting k)) : Step (.waitEnds a) { p with
      server := p.server.setSession k none, handler := p.setHandler a .done }
  | pair {a k f} (h : p.handler a = some (.pairing k f)) :
    Step (.pair a) ⟨p.server.setSession k none, p.setHandler a .done, p.forwards ++ [(k, f, a)]⟩
  | pairFails {a k f} (h : p.handler a = some (.pairing k f)) :
    Step (.pairFails a) { p with handler := p.setHandler a .done }

/-- A key that has joined a pair is not drawn again, and no key is presented while two peers that
have presented it are being answered. -/
def Guard : Event → Prop
  | .draw k => k ∉ p.forwards.map (·.1)
  | .join _ k => ∀ a f, p.handler a ≠ some (.pairing k f)
  | _ => True

/-- A key that has joined a pair is gone, and it joins one at a time. -/
structure SingleUse : Prop where
  one : ∀ k a b f g, p.handler a = some (.pairing k f) → p.handler b = some (.pairing k g) →
    a = b
  gone : ∀ k ∈ p.forwards.map (·.1), p.server.pendingSessions k = none ∧
    ∀ a f, p.handler a ≠ some (.pairing k f)
  once : (p.forwards.map (·.1)).Nodup

variable {p} {q : Pairings} {e : Event} {session : Listener}

theorem setHandler_apply {a b : Nat} {h : SessionHandler} :
    p.setHandler a h b = if b = a then some h else p.handler b :=
  update_apply ..

theorem pendingSessions_setSession {server : Server} {k j : Bytes} {x : Option PendingSession} :
    (server.setSession k x).pendingSessions j = if j = k then x else server.pendingSessions j :=
  update_apply ..

theorem singleUse_step (hg : p.Guard e) (hs : p.Step e q) (h : p.SingleUse) : q.SingleUse := by
  obtain ⟨hone, hgone, honce⟩ := h
  cases hs with
  | @draw k =>
    have hg : k ∉ p.forwards.map (·.1) := hg
    exact ⟨hone, by grind [pendingSessions_setSession], honce⟩
  | @join a k ha =>
    have hg : ∀ a f, p.handler a ≠ some (.pairing k f) := hg
    unfold Pairings.join joinSession
    cases hk : p.server.pendingSessions k with
    | none => constructor <;> grind [setHandler_apply]
    | some session =>
      cases hf : session.firstArrived <;> simp only [hf] <;>
        constructor <;> grind [setHandler_apply, pendingSessions_setSession]
  | waitEnds | pair => constructor <;> grind [setHandler_apply, pendingSessions_setSession]
  | pairFails ha => constructor <;> grind [setHandler_apply]

def new (session : Listener) : Pairings := ⟨.new session, fun _ => none, []⟩

/-- A key joins one pair, and is refused afterwards, in every run in which no third connection
presents it while the first two are being answered. -/
theorem key_joins_one_pair (h : Reach Step Guard (new session) p) :
    (p.forwards.map (·.1)).Nodup ∧
      ∀ k ∈ p.forwards.map (·.1), ∀ a, (p.server.joinSession a k).2 = none := by
  have hsingle := h.invariant ⟨by simp [new], by simp [new], List.nodup_nil⟩ singleUse_step
  refine ⟨hsingle.once, fun k hk a => ?_⟩
  simp [joinSession, (hsingle.gone k hk).1]

theorem key_joins_one_pair_twice : ∃ p, Reach Step Guard (new someListener) p ∧
    p.forwards = [([7], 0, 1)] ∧ (p.server.joinSession 2 [7]).2 = none := by
  have h : Reach Step Guard (new someListener) (new someListener) := .refl
  have h := h.next (.draw (k := [7]) (i := deviceOf 1) (j := deviceOf 2)) (by simp [Guard, new])
    |>.next (.join (a := 0) (k := [7]) rfl) (by simp [Guard, new])
    |>.next (.join (a := 1) (k := [7]) rfl) (by
      simp [Guard, Pairings.join, new, setHandler_apply, joinSession, setSession])
    |>.next (.pair (a := 1) rfl) trivial
  refine ⟨_, h, rfl, (key_joins_one_pair h).2 [7] ?_ 2⟩
  simp [new, Pairings.join, joinSession, setSession]

/-- A third and a fourth connection come while the first two are being answered. -/
theorem key_joins_two_pairs : ∃ p, Reach Step (fun _ _ => True) (new someListener) p ∧
    p.forwards = [([7], 0, 1), ([7], 2, 3)] :=
  ⟨_, Reach.refl.go (.draw (k := [7]) (i := deviceOf 1) (j := deviceOf 2))
    |>.go (.join (a := 0) (k := [7]) rfl) |>.go (.join (a := 1) (k := [7]) rfl)
    |>.go (.join (a := 2) (k := [7]) rfl) |>.go (.join (a := 3) (k := [7]) rfl)
    |>.go (.pair (a := 1) rfl) |>.go (.pair (a := 3) rfl), rfl⟩

section
variable {s s' : System} {a : Nat}

/-- The session keys, the handlers and the pairs of a system. A connection whose first bytes are no
request has ended there, and has not presented a key here. -/
structure Shows (s : System) (p : Pairings) : Prop where
  pending : p.server.pendingSessions = s.server.pendingSessions
  handler : ∀ a, p.handler a = s.sessions a ∨ p.handler a = none ∧ s.sessions a = some .done
  forwards : p.forwards.map (·.2) = s.forwards

theorem Shows.congr (h : Shows s p) (hp : s'.server.pendingSessions = s.server.pendingSessions)
    (hs : s'.sessions = s.sessions) (hf : s'.forwards = s.forwards) : Shows s' p :=
  ⟨h.pending.trans hp.symm, fun a => hs ▸ h.handler a, h.forwards.trans hf.symm⟩

theorem Shows.handler_eq {x : SessionHandler} (h : Shows s p) (hx : s.sessions a = some x)
    (hne : x ≠ .done) : p.handler a = some x := by
  rcases h.handler a with heq | ⟨-, hdone⟩
  · exact heq.trans hx
  · cases hx.symm.trans hdone
    exact absurd rfl hne

/-- The handler of a session connection goes on. -/
theorem Shows.advance {x : SessionHandler} {server : Server} {forwards : List (Nat × Nat)}
    (h : Shows s p) (hpending : q.server.pendingSessions = server.pendingSessions)
    (hhandler : q.handler = p.setHandler a x) (hforwards : q.forwards.map (·.2) = forwards) :
    Shows { s.setHandler a x with server, forwards } q := by
  refine ⟨hpending, fun b => ?_, hforwards⟩
  change _ = update s.sessions a (some x) b ∨ _ ∧ update s.sessions a (some x) b = _
  rw [hhandler, setHandler_apply, update_apply]
  split
  · exact .inl rfl
  · exact h.handler b

theorem pendingSessions_handleMessage {server : Server} {c : Nat} {d : DeviceId} {key : SessionKey}
    {m : MessageType × Bytes} :
    (server.handleMessage c d key m).1.pendingSessions = server.pendingSessions ∨
      ∃ target, (server.handleMessage c d key m).1.pendingSessions =
        (server.setSession key.bytes (some ⟨d, target, none⟩)).pendingSessions := by
  unfold handleMessage handleConnectRequest
  repeat' split
  all_goals first | exact .inl rfl | exact .inr ⟨_, rfl⟩

/-- What a step of the system does to the session keys is a step of the pairings, or nothing. -/
theorem Shows.step {e : RelayEvent} (h : Shows s p) (hs : RelayStep s e s') :
    ∃ q, Reach Step (fun _ _ => True) p q ∧ Shows s' q := by
  obtain ⟨⟩ := hs
  have hstay : ∀ {t}, Shows t p → ∃ q, Reach Step (fun _ _ => True) p q ∧ Shows t q :=
    fun h => ⟨p, .refl, h⟩
  cases e with
  | read | call | receive | endOfStream | timeOut | drop =>
    exact hstay (h.congr (by simp [System.apply]) (by simp [System.apply]) (by simp [System.apply]))
  | connect | checkCapacity | register | tick | pingFails | write | disconnect =>
    refine hstay (h.congr ?_ ?_ ?_) <;>
      simp only [System.apply, System.connect, System.checkCapacity, System.register, System.tick,
        System.pingFails, System.write, System.disconnect, System.send] <;>
      repeat' split
    all_goals simp [System.setConn, insertClient, removeClient]
  | handle c key =>
    change ∃ q, _ ∧ Shows (s.handle c key) q
    unfold System.handle
    split
    · exact hstay h
    next conn _ =>
      split
      · exact hstay h
      next message buffered _ =>
        split
        · rcases @pendingSessions_handleMessage s.server c conn.deviceId key message with
            hp | ⟨target, hp⟩
          · exact hstay (h.congr hp rfl rfl)
          · refine ⟨_, Reach.refl.go (.draw (k := key.bytes) (i := conn.deviceId) (j := target)), ?_⟩
            refine ⟨?_, h.handler, h.forwards⟩
            refine Eq.trans ?_ hp.symm
            simp only [setSession, h.pending]
        · exact hstay h
  | join a data =>
    change ∃ q, _ ∧ Shows (s.join a data) q
    have hfree : s.sessions a = none → p.handler a = none := by
      intro hnone
      rcases h.handler a with heq | ⟨heq, -⟩
      · exact heq.trans hnone
      · exact heq
    unfold System.join
    split
    · exact hstay h
    next hnone _ =>
      refine hstay ⟨h.pending, fun b => ?_, h.forwards⟩
      change _ = update s.sessions a (some .done) b ∨ _ ∧ update s.sessions a (some .done) b = _
      rw [update_apply]
      split
      next hb => exact .inr ⟨hb ▸ hfree hnone, rfl⟩
      · exact h.handler b
    next key hnone _ =>
      refine ⟨_, Reach.refl.go (.join (k := key) (hfree hnone)), ?_⟩
      unfold Pairings.join joinSession
      rw [h.pending]
      cases s.server.pendingSessions key with
      | none => exact h.advance h.pending rfl h.forwards
      | some session =>
        cases hfirst : session.firstArrived with
        | none | some =>
          simp only [hfirst]
          exact h.advance (by simp only [setSession, h.pending]) rfl h.forwards
  | waitEnds a =>
    change ∃ q, _ ∧ Shows (s.waitEnds a) q
    unfold System.waitEnds
    split
    next hwaiting =>
      refine ⟨_, Reach.refl.go (.waitEnds (h.handler_eq hwaiting nofun)), ?_⟩
      exact h.advance (by simp only [setSession, h.pending]) rfl h.forwards
    · exact hstay h
  | pair a =>
    change ∃ q, _ ∧ Shows (s.pair a) q
    unfold System.pair
    split
    next hpairing =>
      refine ⟨_, Reach.refl.go (.pair (h.handler_eq hpairing nofun)), ?_⟩
      exact h.advance (by simp only [setSession, h.pending]) rfl (by simp [h.forwards])
    · exact hstay h
  | pairFails a =>
    change ∃ q, _ ∧ Shows (s.pairFails a) q
    unfold System.pairFails
    split
    next hpairing =>
      refine ⟨_, Reach.refl.go (.pairFails (h.handler_eq hpairing nofun)), ?_⟩
      exact h.advance h.pending rfl h.forwards
    · exact hstay h

/-- The session keys of every reachable system are those of some run of the pairings. -/
theorem shows_of_reach (h : Reach RelayStep (fun _ _ => True) (System.new session) s) :
    ∃ p, Reach Step (fun _ _ => True) (new session) p ∧ Shows s p :=
  h.simulate ⟨rfl, fun _ => .inl rfl, rfl⟩ fun hs hshows => hshows.step hs

end

end Pairings

end Syncthing.Relay
