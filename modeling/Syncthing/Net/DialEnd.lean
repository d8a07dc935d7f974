import Syncthing.Net.DialRace

/-! The connection that the larger device dials is the one both ends keep, unless that device finds
the other connection registered before it dials. -/
namespace Syncthing

open Function ConnectionManager ConnectionType Stage

theorem DevicePair.kept_eq {ids : DevicePair} {p : Device} {m : ConnectionManager Device}
    (h : m.localDeviceId = ids.id p) : m.kept (ids.id p.other) = Race.keptAt p := by
  cases p with
  | smaller =>
    have hlt : m.localSmaller ids.larger = true := by
      simpa [localSmaller, h, DevicePair.id] using ids.lt
    simp [kept, Device.other, DevicePair.id, hlt, Race.keptAt, typeAt]
  | larger =>
    have hlt : m.localSmaller ids.smaller = false := by
      simpa [localSmaller, h, DevicePair.id] using List.le_of_lt ids.lt
    simp [kept, Device.other, DevicePair.id, hlt, Race.keptAt, typeAt]

variable (p : Device)

@[simp] theorem dialer_keptAt : dialer p (Race.keptAt p) = .larger := by
  cases p <;> rfl

@[simp] theorem dialer_keptAt_other : dialer p (Race.keptAt p).other = .smaller := by
  cases p <;> rfl

@[simp] theorem endAt_id (t : ConnectionType) : (endAt p t).id = dialer p t := rfl

theorem eq_of_pool_eq {p : Device} {t u : ConnectionType}
    (h : some [endAt p t] = some [endAt p u]) : t = u := by
  simpa [endAt] using congrArg (Option.map fun l => l.map (·.connType)) h

namespace Stage

/-- A dial that can still be cancelled. -/
@[simp] def Attempting : Stage → Prop
  | opened | cleared | contended | begun | connected => True
  | _ => False

/-- The handshake has not lost the race. -/
@[simp] def Entered : Stage → Prop
  | waiting | skipped | opened | cleared => False
  | _ => True

/-- Begun, and neither registered nor given up. -/
@[simp] def InProgress : Stage → Prop
  | opened | cleared | contended | begun | connected | greeted | decided _ => True
  | _ => False

/-- TLS of the dialed connection is complete. -/
@[simp] def Linked : Stage → Prop
  | connected | greeted | decided _ => True
  | leaving outcome | ended outcome => outcome = .registered
  | _ => False

variable {P : Stage → Prop} {σ : ConnectionType → Stage} {t u : ConnectionType} {x : Stage}

theorem of_update (hx : P x → P (σ t)) (h : P (update σ t x u)) : P (σ u) := by
  by_cases hu : u = t
  · subst hu
    rw [update_self] at h
    exact hx h
  · rwa [update_of_ne hu] at h

theorem to_update (hx : P (σ t) → P x) (h : P (σ u)) : P (update σ t x u) := by
  by_cases hu : u = t
  · subst hu
    rw [update_self]
    exact hx h
  · rwa [update_of_ne hu]

section
variable (h : x.InProgress)
include h

theorem InProgress.not_registered : ¬ x.Registered := by rintro (rfl | rfl) <;> exact h

theorem InProgress.not_dropped : ¬ x.Dropped := by
  intro hd
  cases x <;> first | exact hd | exact h

theorem InProgress.ne_waiting : x ≠ waiting := by
  rintro rfl
  exact h

theorem InProgress.ne_skipped : x ≠ skipped := by
  rintro rfl
  exact h

end

theorem Ended.registered (h : x.Ended) (hnot : ¬ x.Dropped) : x.Registered := by
  cases x with
  | skipped => exact (hnot trivial).elim
  | ended outcome =>
    obtain rfl := not_not.mp hnot
    exact .inr rfl
  | _ => exact h.elim

theorem Registered.not_dropped (h : x.Registered) : ¬ x.Dropped := by
  rcases h with rfl | rfl <;> simp

end Stage

open ConnectionManager Race

/-- What holds at the end `p`, which has the manager `m` and the tasks `σ`. By `C` the larger device
has begun to dial. -/
structure EndInv (ids : DevicePair) (p : Device) (m : ConnectionManager Device)
    (σ : ConnectionType → Stage) (C : Prop) : Prop where
  localId : m.localDeviceId = ids.id p
  pool_cases : m.connections (ids.id p.other) = none ∨
    ∃ t, m.connections (ids.id p.other) = some [endAt p t]
  registered_of_pool : ∀ t, m.connections (ids.id p.other) = some [endAt p t] → (σ t).Registered
  pool_of_kept : (σ (keptAt p)).Registered →
    m.connections (ids.id p.other) = some [endAt p (keptAt p)]
  pool_of_other : (σ (keptAt p).other).Registered →
    C ∨ m.connections (ids.id p.other) = some [endAt p (keptAt p).other]
  kept_open : m.closed .larger = false
  committed_of_closed : m.closed .smaller = true → C
  kept_not_dropped : (σ (keptAt p)).Dropped → p = .larger ∧ σ (keptAt p) = .skipped
  kept_action : ∀ a, σ (keptAt p) = .decided a →
    a = .createNew ∨ a = .replace (endAt p (keptAt p).other)
  committed_of_dropped : (σ (keptAt p).other).Dropped → C
  entered_of_pending : ∀ t, m.pendingHandshakes (ids.id p.other) = some t → (σ t).Entered
  pending_of_attempt : p = .smaller → (σ .outgoing).Attempting →
    m.pendingConnections (ids.id p.other) = true ∨ C
  not_pending_of_waiting : σ .outgoing = .waiting → m.pendingConnections (ids.id p.other) = false

namespace EndInv

variable {ids : DevicePair} {p : Device} {m : ConnectionManager Device}
  {σ : ConnectionType → Stage} {C C' : Prop} {t : ConnectionType} {x : Stage}
  {a : RegisterAction Device} {m' : ConnectionManager Device}

section
variable (h : EndInv ids p m σ C)
include h

theorem mono (hC : C → C') : EndInv ids p m σ C' := { h with
    pool_of_other := fun hr => (h.pool_of_other hr).imp_left hC
    committed_of_closed := fun hc => hC (h.committed_of_closed hc)
    committed_of_dropped := fun hd => hC (h.committed_of_dropped hd)
    pending_of_attempt := fun hp ha => (h.pending_of_attempt hp ha).imp_right hC }

section
variable (hregistered : x.Registered ↔ (σ t).Registered)
include hregistered

/-- A task goes on without a change of what becomes of its connection. The attempts to dial may
change. -/
theorem move_pending {pending : DeviceId → Bool} (hdropped : x.Dropped → (σ t).Dropped)
    (hskipped : σ t ≠ .skipped) (hentered : (σ t).Entered → x.Entered)
    (haction : ∀ a, x = .decided a → t = keptAt p →
      a = .createNew ∨ a = .replace (endAt p (keptAt p).other))
    (hattempt : p = .smaller → (update σ t x .outgoing).Attempting →
      pending (ids.id p.other) = true ∨ C)
    (hwaiting : update σ t x .outgoing = .waiting → pending (ids.id p.other) = false) :
    EndInv ids p { m with pendingConnections := pending } (update σ t x) C :=
  { h with
    registered_of_pool := fun u hu => to_update hregistered.mpr (h.registered_of_pool u hu)
    pool_of_kept := fun hr => h.pool_of_kept (of_update hregistered.mp hr)
    pool_of_other := fun hr => h.pool_of_other (of_update hregistered.mp hr)
    kept_not_dropped := fun hd => by
      obtain ⟨hp, hk⟩ := h.kept_not_dropped (of_update hdropped hd)
      exact ⟨hp, to_update (P := fun y => y = .skipped) (fun he => (hskipped he).elim) hk⟩
    kept_action := fun a ha => by
      by_cases ht : keptAt p = t
      · subst ht
        rw [update_self] at ha
        exact haction a ha rfl
      · rw [update_of_ne ht] at ha
        exact h.kept_action a ha
    committed_of_dropped := fun hd => h.committed_of_dropped (of_update hdropped hd)
    entered_of_pending := fun u hu => to_update hentered (h.entered_of_pending u hu)
    pending_of_attempt := hattempt
    not_pending_of_waiting := hwaiting }

theorem move
    (hdropped : x.Dropped → (σ t).Dropped) (hskipped : σ t ≠ .skipped) (hwaiting : x ≠ .waiting)
    (hentered : (σ t).Entered → x.Entered)
    (hattempt : t = .outgoing → x.Attempting → (σ t).Attempting)
    (haction : ∀ a, x = .decided a → t = keptAt p →
      a = .createNew ∨ a = .replace (endAt p (keptAt p).other)) :
    EndInv ids p m (update σ t x) C := by
  apply h.move_pending hregistered hdropped hskipped hentered haction
  · intro hp ha
    apply h.pending_of_attempt hp
    by_cases ht : t = .outgoing
    · exact of_update (hattempt ht) ha
    · rwa [update_of_ne (Ne.symm ht)] at ha
  · intro hw
    exact h.not_pending_of_waiting
      (of_update (P := fun y => y = .waiting) (fun he => (hwaiting he).elim) hw)

end

/-- The connection that is not kept is given up. -/
theorem drop (ht : t = (keptAt p).other) (hC : C)
    (hregistered : ¬ (σ t).Registered) (hx : x.Dropped) (hentered : (σ t).Entered → x.Entered) :
    EndInv ids p m (update σ t x) C := by
  have hk : update σ t x (keptAt p) = σ (keptAt p) := update_of_ne (by simp [ht]) ..
  have hregistered' : x.Registered ↔ (σ t).Registered :=
    ⟨fun hr => (hr.not_dropped hx).elim, fun hr => (hregistered hr).elim⟩
  exact { h with
    registered_of_pool := fun u hu => to_update hregistered'.mpr (h.registered_of_pool u hu)
    pool_of_kept := fun hr => h.pool_of_kept (hk ▸ hr)
    pool_of_other := fun _ => .inl hC
    kept_not_dropped := fun hd => by
      rw [hk] at hd ⊢
      exact h.kept_not_dropped hd
    kept_action := fun a ha => h.kept_action a (hk ▸ ha)
    committed_of_dropped := fun _ => hC
    entered_of_pending := fun u hu => to_update hentered (h.entered_of_pending u hu)
    pending_of_attempt := fun _ _ => .inr hC
    not_pending_of_waiting := fun hw => h.not_pending_of_waiting
      (of_update (P := fun y => y = .waiting) (fun he => by simp [he] at hx) hw) }

/-! ## The manager -/

theorem endHandshake : EndInv ids p (m.endHandshake (ids.id p.other)) σ C := { h with
    entered_of_pending := fun t ht => by simp at ht }

theorem enterHandshake (ht : (σ t).Entered) :
    EndInv ids p (m.enterHandshake (ids.id p.other) t) σ C :=
  { h with
    entered_of_pending := fun u hu => by
      rw [pendingHandshakes_enterHandshake] at hu
      obtain rfl := Option.some.inj hu
      exact ht }

theorem contend (hm : m.contend (ids.id p.other) t = .ok m') : EndInv ids p m' σ C := by
  rcases contend_eq_ok hm with rfl | rfl
  · exact h
  · exact h.endHandshake

theorem clearPending (hattempt : p = .smaller → (σ .outgoing).Attempting → C) :
    EndInv ids p (m.clearPending (ids.id p.other)) σ C :=
  { h with
    pending_of_attempt := fun hp ha => .inr (hattempt hp ha)
    not_pending_of_waiting := fun _ => pendingConnections_clearPending }

/-- All but the kept connection may be closed. -/
theorem disconnect (hC : C) (hkept : m.connections (ids.id p.other) ≠ some [endAt p (keptAt p)]) :
    EndInv ids p (m.disconnect (ids.id p.other)) σ C := by
  have hnone : (m.disconnect (ids.id p.other)).connections (ids.id p.other) = none :=
    connections_setConnections
  have hopen : (m.disconnect (ids.id p.other)).closed .larger = false := by
    rcases h.pool_cases with hpool | ⟨t, hpool⟩
    · simp [ConnectionManager.disconnect, close, setConnections, hpool, h.kept_open]
    · rcases ConnectionType.eq_or_eq_other (keptAt p) t with rfl | rfl
      · exact (hkept hpool).elim
      · simp [ConnectionManager.disconnect, close, setConnections, hpool, h.kept_open]
  exact { h with
    pool_cases := .inl hnone
    registered_of_pool := fun t ht => by simp [hnone] at ht
    pool_of_kept := fun hr => (hkept (h.pool_of_kept hr)).elim
    pool_of_other := fun _ => .inl hC
    kept_open := hopen
    committed_of_closed := fun _ => hC }

theorem replaceConnected (ht : ¬ (σ t).Registered) (hC : t = keptAt p → C)
    (horderly : t = keptAt p ∨ m.isConnected (ids.id p.other) = false) :
    EndInv ids p (m.replaceConnected (ids.id p.other)) σ C := by
  rcases horderly with rfl | hnot
  · unfold replaceConnected
    split
    · exact h.disconnect (hC rfl) fun hpool => ht (h.registered_of_pool _ hpool)
    · exact h
  · rw [replaceConnected_of_not_connected hnot]
    exact h

/-! ## The race -/

/-- The handshake of the kept connection is not refused, and that of the other one only while the
kept one is under way. -/
theorem entered_of_refused {e : NetError} (ht : ¬ (σ t).Entered)
    (hm : m.contend (ids.id p.other) t = .error e) :
    t = (keptAt p).other ∧ (σ (keptAt p)).Entered := by
  obtain ⟨existing, hpending, hyield⟩ := contend_eq_error hm
  have hentered := h.entered_of_pending existing hpending
  have hne : existing ≠ t := by
    rintro rfl
    exact ht hentered
  rcases eq_or_eq_other (keptAt p) t with rfl | rfl
  · rw [← ids.kept_eq h.localId, shouldYieldNew_kept, decide_eq_true_eq,
      ids.kept_eq h.localId] at hyield
    exact (hne hyield).elim
  · rcases eq_or_eq_other (keptAt p) existing with rfl | rfl
    · exact ⟨rfl, hentered⟩
    · exact (hne rfl).elim

/-- What is decided on the kept connection. -/
theorem registerAction_kept (ht : ¬ (σ (keptAt p)).Registered) :
    m.registerAction (ids.id p.other) (endAt p (keptAt p)) = .createNew ∨
      m.registerAction (ids.id p.other) (endAt p (keptAt p)) =
        .replace (endAt p (keptAt p).other) := by
  rcases h.pool_cases with hpool | ⟨t, hpool⟩
  · exact .inl (by simp [registerAction, hpool])
  · rcases eq_or_eq_other (keptAt p) t with rfl | rfl
    · exact (ht (h.registered_of_pool _ hpool)).elim
    · have hreplace : m.shouldReplace (ids.id p.other) (keptAt p).other (keptAt p) = true :=
        shouldReplace_iff.mpr ⟨other_ne _, (ids.kept_eq h.localId).symm⟩
      exact .inr (by simp [registerAction, hpool, endAt, hreplace])

/-- What is decided on the other one. -/
theorem registerAction_other (ht : ¬ (σ (keptAt p).other).Registered) :
    m.connections (ids.id p.other) = none ∧
        m.registerAction (ids.id p.other) (endAt p (keptAt p).other) = .createNew ∨
      (σ (keptAt p)).Registered ∧
        m.registerAction (ids.id p.other) (endAt p (keptAt p).other) = .rejectNew := by
  rcases h.pool_cases with hpool | ⟨t, hpool⟩
  · exact .inl ⟨hpool, by simp [registerAction, hpool]⟩
  · rcases eq_or_eq_other (keptAt p) t with rfl | rfl
    · have hkeep : m.shouldReplace (ids.id p.other) (keptAt p) (keptAt p).other = false := by
        rw [Bool.eq_false_iff]
        intro hreplace
        have hkept := (shouldReplace_iff.mp hreplace).2
        rw [ids.kept_eq h.localId] at hkept
        exact other_ne _ hkept
      exact .inr ⟨h.registered_of_pool _ hpool, by simp [registerAction, hpool, endAt, hkeep]⟩
    · exact (ht (h.registered_of_pool _ hpool)).elim

/-- The kept connection alone is in the pool. -/
theorem pooled_kept (hC : C) (hid : m'.localDeviceId = m.localDeviceId)
    (hpool : m'.connections (ids.id p.other) = some [endAt p (keptAt p)])
    (hopen : m'.closed .larger = false) (hhandshakes : m'.pendingHandshakes = m.pendingHandshakes)
    (hattempt : m'.pendingConnections (ids.id p.other) = false) :
    EndInv ids p m' (update σ (keptAt p) (.leaving .registered)) C where
  localId := hid.trans h.localId
  pool_cases := .inr ⟨keptAt p, hpool⟩
  registered_of_pool u hu := by
    obtain rfl := eq_of_pool_eq (hpool.symm.trans hu)
    rw [update_self]
    exact .inl rfl
  pool_of_kept _ := hpool
  pool_of_other _ := .inl hC
  kept_open := hopen
  committed_of_closed _ := hC
  kept_not_dropped hd := by simp at hd
  kept_action a ha := by simp at ha
  committed_of_dropped _ := hC
  entered_of_pending u hu := by
    rw [hhandshakes] at hu
    exact to_update (fun _ => trivial) (h.entered_of_pending u hu)
  pending_of_attempt _ _ := .inr hC
  not_pending_of_waiting _ := hattempt

theorem register_kept (hC : C) (ha : σ (keptAt p) = .decided a) :
    a ≠ .rejectNew ∧ EndInv ids p (m.act (ids.id p.other) (endAt p (keptAt p)) a)
      (update σ (keptAt p) (.leaving .registered)) C := by
  rcases h.kept_action a ha with rfl | rfl
  · refine ⟨by simp, h.pooled_kept hC rfl ?_ h.kept_open rfl ?_⟩
    · exact connections_setConnections
    · exact pendingConnections_clearPending
  · refine ⟨by simp, h.pooled_kept hC rfl ?_ ?_ rfl ?_⟩
    · exact connections_setConnections
    · simp [act, close, setConnections, ConnectionManager.clearPending, h.kept_open]
    · exact pendingConnections_clearPending

/-- The other connection is put into an empty pool. -/
theorem create_other (hpool : m.connections (ids.id p.other) = none) :
    EndInv ids p (m.act (ids.id p.other) (endAt p (keptAt p).other) .createNew)
      (update σ (keptAt p).other (.leaving .registered)) C := by
  have hnew : (m.act (ids.id p.other) (endAt p (keptAt p).other) .createNew).connections
      (ids.id p.other) = some [endAt p (keptAt p).other] := connections_setConnections
  have hk : update σ (keptAt p).other (.leaving .registered) (keptAt p) = σ (keptAt p) :=
    update_of_ne (ne_other _) ..
  exact { h with
    pool_cases := .inr ⟨_, hnew⟩
    registered_of_pool := fun u hu => by
      obtain rfl := eq_of_pool_eq (hnew.symm.trans hu)
      rw [update_self]
      exact .inl rfl
    pool_of_kept := fun hr => by
      rw [hk] at hr
      rw [h.pool_of_kept hr] at hpool
      cases hpool
    pool_of_other := fun _ => .inr hnew
    kept_not_dropped := fun hd => by
      rw [hk] at hd ⊢
      exact h.kept_not_dropped hd
    kept_action := fun a ha => h.kept_action a (hk ▸ ha)
    committed_of_dropped := fun hd => by simp at hd
    entered_of_pending := fun u hu => to_update (fun _ => trivial) (h.entered_of_pending u hu)
    pending_of_attempt := fun hp ha => by
      subst hp
      simp [keptAt, typeAt, other] at ha
    not_pending_of_waiting := fun _ => pendingConnections_clearPending }

theorem register_other (hC : (σ (keptAt p)).Registered → C) (ha : σ (keptAt p).other = .decided a)
    (horderly : a = m.registerAction (ids.id p.other) (endAt p (keptAt p).other)) :
    EndInv ids p (m.act (ids.id p.other) (endAt p (keptAt p).other) a)
      (update σ (keptAt p).other
        (.leaving (if a = .rejectNew then .rejected else .registered))) C := by
  have hnot : ¬ (σ (keptAt p).other).Registered := by simp [ha]
  rcases h.registerAction_other hnot with ⟨hpool, hcreate⟩ | ⟨hkept, hreject⟩
  · obtain rfl := horderly.trans hcreate
    simpa using h.create_other hpool
  · obtain rfl := horderly.trans hreject
    have hC := hC hkept
    have hdropped : EndInv ids p m (update σ (keptAt p).other (.leaving .rejected)) C :=
      h.drop rfl hC hnot (by simp) fun _ => trivial
    exact { hdropped with
      kept_open := by simp [act, close, hdropped.kept_open]
      committed_of_closed := fun _ => hC }

/-! ## The dial -/

section
variable (hw : σ .outgoing = .waiting)
include hw

theorem note (hm : m.startDial (ids.id p.other) = some m') :
    EndInv ids p m' (update σ .outgoing .opened) C := by
  obtain rfl := startDial_eq_some hm
  apply h.move_pending
  · simp [hw]
  · simp
  · simp [hw]
  · simp [hw]
  · simp
  · intro _ _
    exact .inl (update_self ..)
  · simp

/-- A device finds itself connected before it dials. -/
theorem registered_of_skip
    (hm : m.startDial (ids.id p.other) = none) : (σ .incoming).Registered := by
  rcases startDial_eq_none hm with hconnected | hpending
  · rcases h.pool_cases with hpool | ⟨t, hpool⟩
    · simp [isConnected, getConnection, hpool] at hconnected
    · have hregistered := h.registered_of_pool t hpool
      cases t with
      | incoming => exact hregistered
      | outgoing => simp [hw] at hregistered
  · rw [h.not_pending_of_waiting hw] at hpending
    cases hpending

theorem skip (hC : p = .smaller → C) : EndInv ids p m (update σ .outgoing .skipped) C := by
  have hregistered : skipped.Registered ↔ (σ .outgoing).Registered := by simp [hw]
  cases p with
  | smaller =>
    apply h.drop rfl (hC rfl)
    · intro hr
      exact absurd (hregistered.mpr hr) (by simp)
    · exact trivial
    · intro he
      change (σ .outgoing).Entered at he
      simp [hw] at he
  | larger =>
    exact { h with
      registered_of_pool := fun u hu => to_update hregistered.mpr (h.registered_of_pool u hu)
      pool_of_kept := fun hr => h.pool_of_kept (of_update hregistered.mp hr)
      pool_of_other := fun hr => h.pool_of_other (of_update hregistered.mp hr)
      kept_not_dropped := fun _ => ⟨rfl, update_self ..⟩
      kept_action := fun a ha => by
        change update σ .outgoing .skipped .outgoing = _ at ha
        simp at ha
      committed_of_dropped := fun hd => h.committed_of_dropped hd
      entered_of_pending := fun u hu => to_update (by simp [hw]) (h.entered_of_pending u hu)
      pending_of_attempt := fun hp => by cases hp
      not_pending_of_waiting := fun hw' => by simp at hw' }

end

theorem linked (hst : (σ .outgoing).Dialing) :
    EndInv ids p m (update σ .outgoing (σ .outgoing).linked) C := by
  rcases hst with hst | hst | hst
  · apply h.move <;>
      simp [hst, Stage.linked]
  · rw [show (σ .outgoing).linked = σ .outgoing by rw [hst]; rfl, update_eq_self]
    exact h
  · rw [show (σ .outgoing).linked = σ .outgoing by rw [hst]; rfl, update_eq_self]
    exact h

theorem accept (hst : σ .incoming = .waiting) : EndInv ids p m (update σ .incoming .opened) C := by
  apply h.move <;> simp [hst]

end

end EndInv

end Syncthing
