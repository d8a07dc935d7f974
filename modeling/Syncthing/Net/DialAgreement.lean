import Syncthing.Net.DialEnd

/-! What each step keeps at both ends, and what the devices have registered when all have run. -/
namespace Syncthing

open Function Device

namespace Race

variable {ids : DevicePair} {s u : Race} {p q : Device} {t : ConnectionType} {x : Stage}
  {m : ConnectionManager Device} {a : Action} {e : NetError}

@[simp] theorem manager_setStage : (s.setStage p t x).manager = s.manager := rfl

@[simp] theorem stage_setManager : (s.setManager p m).stage = s.stage := rfl

@[simp] theorem manager_setManager_self : (s.setManager p m).manager p = m := update_self ..

theorem manager_setManager_of_ne (h : q ≠ p) : (s.setManager p m).manager q = s.manager q :=
  update_of_ne h ..

@[simp] theorem stage_setStage_self : (s.setStage p t x).stage p = update (s.stage p) t x :=
  update_self ..

theorem stage_setStage_of_ne (h : q ≠ p) : (s.setStage p t x).stage q = s.stage q :=
  update_of_ne h ..

theorem setStage_eq : s.setStage p t x = (s.setManager p (s.manager p)).setStage p t x := by
  simp [setManager]

/-- The larger device has begun to dial, so its connection will be there. -/
def Committed (s : Race) : Prop :=
  s.stage .larger .outgoing ≠ .waiting ∧ s.stage .larger .outgoing ≠ .skipped

structure Inv (ids : DevicePair) (s : Race) : Prop where
  ends : ∀ p, EndInv ids p (s.manager p) (s.stage p) s.Committed
  linked : s.stage .smaller .incoming ≠ .waiting ↔ (s.stage .larger .outgoing).Linked
  skipped : s.stage .larger .outgoing = .skipped → (s.stage .larger .incoming).Registered

theorem inv_start : Inv ids (start ids) where
  ends p :=
    { localId := rfl
      pool_cases := .inl rfl
      registered_of_pool := fun t ht => by cases ht
      pool_of_kept := fun hr => by simp [start] at hr
      pool_of_other := fun hr => by simp [start] at hr
      kept_open := rfl
      committed_of_closed := fun hc => by cases hc
      kept_not_dropped := fun hd => hd.elim
      kept_action := fun a ha => by cases ha
      committed_of_dropped := fun hd => hd.elim
      entered_of_pending := fun t ht => by cases ht
      pending_of_attempt := fun _ ha => ha.elim
      not_pending_of_waiting := fun _ => rfl }
  linked := by simp [start]
  skipped h := by cases h

theorem setStage_committed (h : s.Committed) (hw : x ≠ .waiting)
    (hs : x = .skipped → s.stage p t = .waiting) : (s.setStage p t x).Committed := by
  unfold Committed
  by_cases hp : p = .larger
  · subst hp
    rw [stage_setStage_self]
    by_cases ht : t = .outgoing
    · subst ht
      rw [update_self]
      exact ⟨hw, fun he => h.1 (hs he)⟩
    · rw [update_of_ne (Ne.symm ht)]
      exact h
  · rw [stage_setStage_of_ne (Ne.symm hp)]
    exact h

section
variable (h : Inv ids s)
include h

theorem Inv.committed_of_kept (p : Device)
    (hw : s.stage p (keptAt p) ≠ .waiting) (hs : s.stage p (keptAt p) ≠ .skipped) : s.Committed := by
  cases p with
  | smaller =>
    have hlinked := h.linked.mp hw
    constructor
    · intro he
      simp [he] at hlinked
    · intro he
      simp [he] at hlinked
  | larger => exact ⟨hw, hs⟩

/-- A step of one task, and of the manager of its device. -/
theorem Inv.update (hp : EndInv ids p m (update (s.stage p) t x) s.Committed) (hw : x ≠ .waiting)
    (hs : x = .skipped → t = .outgoing ∧ s.stage p t = .waiting ∧ (s.stage p .incoming).Registered)
    (hincoming : t = .incoming → s.stage p t ≠ .waiting)
    (hlinked : p = .larger → t = .outgoing → (x.Linked ↔ (s.stage p t).Linked))
    (hregistered : (s.stage p t).Registered → x.Registered) :
    Inv ids ((s.setManager p m).setStage p t x) := by
  have hcommitted : s.Committed → ((s.setManager p m).setStage p t x).Committed := fun hc =>
    setStage_committed (s := s.setManager p m) hc hw fun he => (hs he).2.1
  constructor
  · intro q
    by_cases hq : q = p
    · subst hq
      simpa using hp.mono hcommitted
    · rw [manager_setStage, manager_setManager_of_ne hq, stage_setStage_of_ne hq, stage_setManager]
      exact (h.ends q).mono hcommitted
  · cases p with
    | smaller =>
      rw [stage_setStage_of_ne (q := .larger) (by simp), stage_setStage_self, stage_setManager,
        ← h.linked]
      by_cases ht : t = .incoming
      · subst ht
        simp [hw, hincoming rfl]
      · rw [update_of_ne (Ne.symm ht)]
    | larger =>
      rw [stage_setStage_of_ne (q := .smaller) (by simp), stage_setStage_self, stage_setManager,
        h.linked]
      by_cases ht : t = .outgoing
      · subst ht
        rw [update_self]
        exact (hlinked rfl rfl).symm
      · rw [update_of_ne (Ne.symm ht)]
  · intro hskip
    by_cases hq : larger = p
    · subst hq
      rw [stage_setStage_self, stage_setManager] at hskip ⊢
      by_cases ht : t = .outgoing
      · subst ht
        rw [update_self] at hskip
        exact (hs hskip).2.2
      · rw [update_of_ne (Ne.symm ht)] at hskip
        exact Stage.to_update hregistered (h.skipped hskip)
    · rw [stage_setStage_of_ne hq, stage_setManager] at hskip ⊢
      exact h.skipped hskip

theorem Inv.skip (hw : s.stage p .outgoing = .waiting)
    (hm : (s.manager p).startDial (ids.id p.other) = none) :
    Inv ids (s.setStage p .outgoing .skipped) := by
  have hregistered := (h.ends p).registered_of_skip hw hm
  rw [setStage_eq]
  apply h.update
  · apply (h.ends p).skip hw
    rintro rfl
    -- the incoming connection is the kept one here
    apply h.committed_of_kept .smaller
    · intro he
      change s.stage .smaller .incoming = _ at he
      simp [he] at hregistered
    · intro he
      change s.stage .smaller .incoming = _ at he
      simp [he] at hregistered
  · simp
  · intro _
    exact ⟨rfl, hw, hregistered⟩
  · simp
  · simp [hw]
  · simp [hw]

theorem Inv.note (hw : s.stage p .outgoing = .waiting)
    (hm : (s.manager p).startDial (ids.id p.other) = some m) :
    Inv ids ((s.setManager p m).setStage p .outgoing .opened) := by
  apply h.update ((h.ends p).note hw hm)
  · simp
  · simp
  · simp
  · simp [hw]
  · simp [hw]

/-- A task in progress stays so. -/
theorem Inv.advance (hp : EndInv ids p m (s.stage p) s.Committed)
    (hold : (s.stage p t).InProgress) (hx : x.InProgress)
    (hentered : (s.stage p t).Entered → x.Entered)
    (hattempt : t = .outgoing → x.Attempting → (s.stage p t).Attempting)
    (hlinked : t = .outgoing → (x.Linked ↔ (s.stage p t).Linked))
    (haction : ∀ a, x = .decided a → t = keptAt p →
      a = .createNew ∨ a = .replace (endAt p (keptAt p).other)) :
    Inv ids ((s.setManager p m).setStage p t x) := by
  apply h.update
  · apply hp.move _ _ hold.ne_skipped hx.ne_waiting hentered hattempt haction
    · exact ⟨fun hr => (hx.not_registered hr).elim, fun hr => (hold.not_registered hr).elim⟩
    · intro hd
      exact (hx.not_dropped hd).elim
  · exact hx.ne_waiting
  · intro he
    exact (hx.ne_skipped he).elim
  · intro _
    exact hold.ne_waiting
  · intro _
    exact hlinked
  · intro hr
    exact (hold.not_registered hr).elim

theorem Inv.clear (hst : s.stage p t = .opened)
    (horderly : t = keptAt p ∨ (s.manager p).isConnected (ids.id p.other) = false) :
    Inv ids ((s.setManager p ((s.manager p).replaceConnected (ids.id p.other))).setStage p t
      .cleared) := by
  have hcommitted : t = keptAt p → s.Committed := by
    rintro rfl
    exact h.committed_of_kept p (by simp [hst]) (by simp [hst])
  have hend := (h.ends p).replaceConnected (t := t) (by simp [hst]) hcommitted
    horderly
  apply h.advance hend <;> simp [hst]

theorem Inv.contend (hst : s.stage p t = .cleared)
    (hm : (s.manager p).contend (ids.id p.other) t = .ok m) :
    Inv ids ((s.setManager p m).setStage p t .contended) := by
  apply h.advance ((h.ends p).contend hm) <;>
    simp [hst]

theorem Inv.enter (hst : s.stage p t = .contended) :
    Inv ids ((s.setManager p ((s.manager p).enterHandshake (ids.id p.other) t)).setStage p t
      .begun) := by
  have hend := (h.ends p).enterHandshake (t := t) (by simp [hst])
  apply h.advance hend <;> simp [hst]

theorem Inv.answer (hst : s.stage p .incoming = .begun) :
    Inv ids (s.setStage p .incoming .greeted) := by
  rw [setStage_eq]
  apply h.advance (h.ends p) <;> simp [hst]

theorem Inv.greeted (hst : s.stage p .outgoing = .connected) :
    Inv ids (s.setStage p .outgoing .greeted) := by
  rw [setStage_eq]
  apply h.advance (h.ends p) <;>
    simp [hst]

theorem Inv.decide (hst : s.stage p t = .greeted) : Inv ids (s.setStage p t
      (.decided ((s.manager p).registerAction (ids.id p.other) (endAt p t)))) := by
  rw [setStage_eq]
  apply h.advance (h.ends p)
  · simp [hst]
  · simp
  · simp
  · simp
  · simp [hst]
  · rintro a ha rfl
    obtain rfl := Stage.decided.inj ha
    apply (h.ends p).registerAction_kept
    simp [hst]

/-- The task of the connection that is not kept gives it up. -/
theorem Inv.drop (hp : EndInv ids p m (s.stage p) s.Committed)
    (hold : (s.stage p t).InProgress) (ht : t = (keptAt p).other) (hcommitted : s.Committed)
    (hx : x.Dropped) (hs : x ≠ .skipped) (hentered : x.Entered) :
    Inv ids ((s.setManager p m).setStage p t x) := by
  apply h.update
  · apply hp.drop ht hcommitted hold.not_registered hx
    intro _
    exact hentered
  · rintro rfl
    exact hx
  · intro he
    exact (hs he).elim
  · intro _
    exact hold.ne_waiting
  · rintro rfl rfl
    simp [keptAt, typeAt, ConnectionType.other] at ht
  · intro hr
    exact (hold.not_registered hr).elim

theorem Inv.committed_of_refused (hst : s.stage p t = .cleared)
    (hm : (s.manager p).contend (ids.id p.other) t = .error e) :
    t = (keptAt p).other ∧ s.Committed := by
  obtain ⟨ht, hentered⟩ := (h.ends p).entered_of_refused (by simp [hst]) hm
  refine ⟨ht, h.committed_of_kept p ?_ ?_⟩
  · intro he
    simp [he] at hentered
  · intro he
    simp [he] at hentered

theorem Inv.refuseIncoming (hst : s.stage p .incoming = .cleared)
    (hm : (s.manager p).contend (ids.id p.other) .incoming = .error e) :
    Inv ids (s.setStage p .incoming (.ended .refused)) := by
  obtain ⟨ht, hcommitted⟩ := h.committed_of_refused hst hm
  rw [setStage_eq]
  apply h.drop (h.ends p) _ ht hcommitted <;>
    simp [hst]

theorem Inv.refuseOutgoing (hst : s.stage p .outgoing = .cleared)
    (hm : (s.manager p).contend (ids.id p.other) .outgoing = .error e) :
    Inv ids ((s.setManager p ((s.manager p).clearPending (ids.id p.other))).setStage p .outgoing
      (.ended .refused)) := by
  obtain ⟨ht, hcommitted⟩ := h.committed_of_refused hst hm
  apply h.drop ((h.ends p).clearPending fun _ _ => hcommitted) _ ht hcommitted <;>
    simp [hst]

/-- Only the connection of the smaller device is refused by the other end. -/
theorem Inv.fail (hst : s.stage p .outgoing = .connected)
    (hin : s.stage p.other .incoming = .ended .refused) :
    Inv ids ((s.setManager p ((s.manager p).clearPending (ids.id p.other))).setStage p .outgoing
      (.leaving .failed)) := by
  cases p with
  | smaller =>
    have hcommitted : s.Committed := by
      apply (h.ends .larger).committed_of_dropped
      change (s.stage .larger .incoming).Dropped
      rw [show s.stage .larger .incoming = _ from hin]
      simp
    apply h.drop (t := .outgoing) ((h.ends _).clearPending fun _ _ => hcommitted) _ rfl
      hcommitted <;> simp [hst]
  | larger =>
    have hdropped : (s.stage .smaller (keptAt .smaller)).Dropped := by
      change (s.stage .smaller .incoming).Dropped
      rw [show s.stage .smaller .incoming = _ from hin]
      simp
    exact absurd ((h.ends .smaller).kept_not_dropped hdropped).1 (by simp)

theorem Inv.cancel
    (hst : s.stage .smaller .outgoing = .begun ∨ s.stage .smaller .outgoing = .connected)
    (hpending : (s.manager .smaller).pendingConnections (ids.id smaller.other) = false) :
    Inv ids (s.setStage .smaller .outgoing (.leaving .cancelled)) := by
  have hattempt : (s.stage .smaller .outgoing).Attempting := by
    rcases hst with hst | hst <;> simp [hst]
  have hcommitted : s.Committed := by
    rcases (h.ends .smaller).pending_of_attempt rfl hattempt with hp | hc
    · rw [hpending] at hp
      cases hp
    · exact hc
  rw [setStage_eq]
  apply h.drop (t := .outgoing) (h.ends _) _ rfl hcommitted
  · simp
  · simp
  · trivial
  · rcases hst with hst | hst <;> simp [hst]

theorem Inv.register {action : RegisterAction Device} (hst : s.stage p t = .decided action)
    (horderly : t = keptAt p ∨
      s.stage p t = .decided ((s.manager p).registerAction (ids.id p.other) (endAt p t))) :
    Inv ids ((s.setManager p ((s.manager p).act (ids.id p.other) (endAt p t) action)).setStage p t
      (.leaving (if action = .rejectNew then .rejected else .registered))) := by
  have hnot : ¬ (s.stage p t).Registered := by simp [hst]
  apply h.update
  · by_cases ht : t = keptAt p
    · subst ht
      have hcommitted := h.committed_of_kept p (by simp [hst]) (by simp [hst])
      obtain ⟨hne, hend⟩ := (h.ends p).register_kept hcommitted hst
      rwa [if_neg hne]
    · obtain rfl := (ConnectionType.eq_or_eq_other (keptAt p) t).resolve_left ht
      apply (h.ends p).register_other _ hst
      · exact Stage.decided.inj (hst.symm.trans (horderly.resolve_left ht))
      · intro hr
        apply h.committed_of_kept p
        · intro he
          simp [he] at hr
        · intro he
          simp [he] at hr
  · simp
  · simp
  · simp [hst]
  · rintro rfl rfl
    have hcommitted : s.Committed :=
      h.committed_of_kept .larger (by simp [keptAt, typeAt, hst]) (by simp [keptAt, typeAt, hst])
    have hne := ((h.ends .larger).register_kept hcommitted hst).1
    simp [hst, hne]
  · intro hr
    exact (hnot hr).elim

theorem Inv.leave {outcome : Outcome} (hst : s.stage p t = .leaving outcome) :
    Inv ids ((s.setManager p ((s.manager p).endHandshake (ids.id p.other))).setStage p t
      (.ended outcome)) := by
  apply h.update
  · apply (h.ends p).endHandshake.move <;>
      simp [hst]
  · simp
  · simp
  · simp [hst]
  · simp [hst]
  · simp [hst]

end

theorem keptAt_other (p : Device) : (keptAt p).other = keptAt p.other := by
  cases p <;> rfl

section
variable (h : Inv ids s)
include h

/-- The kept connection is not gone. -/
theorem Inv.kept_not_gone (hr : (s.stage p (keptAt p)).Registered) : ¬ s.Gone p (keptAt p) := by
  rintro (⟨q, hclosed⟩ | hdropped)
  · rw [dialer_keptAt, (h.ends q).kept_open] at hclosed
    cases hclosed
  · rw [keptAt_other] at hdropped
    obtain ⟨hq, hskipped⟩ := (h.ends p.other).kept_not_dropped hdropped
    cases p with
    | smaller =>
      have hlinked := h.linked.mp fun he => by
        change (s.stage .smaller .incoming).Registered at hr
        simp [he] at hr
      rw [show s.stage .larger .outgoing = .skipped from hskipped] at hlinked
      exact hlinked
    | larger => cases hq

theorem Inv.committed_of_gone (hgone : s.Gone p (keptAt p).other) : s.Committed := by
  rcases hgone with ⟨q, hclosed⟩ | hdropped
  · rw [dialer_keptAt_other] at hclosed
    exact (h.ends q).committed_of_closed hclosed
  · rw [keptAt_other p] at hdropped
    exact (h.ends p.other).committed_of_dropped hdropped

theorem Inv.sessionEnd (hr : (s.stage p t).Registered) (hgone : s.Gone p t)
    (horderly : t = keptAt p ∨ s.pool ids p ≠ some [endAt p (keptAt p)]) :
    Inv ids (s.setManager p ((s.manager p).disconnect (ids.id p.other))) := by
  rcases horderly with rfl | hpool
  · exact (h.kept_not_gone hr hgone).elim
  · have hne : t ≠ keptAt p := by
      rintro rfl
      exact hpool ((h.ends p).pool_of_kept hr)
    obtain rfl := (ConnectionType.eq_or_eq_other (keptAt p) t).resolve_left hne
    refine ⟨fun q => ?_, h.linked, h.skipped⟩
    by_cases hq : q = p
    · subst hq
      rw [manager_setManager_self]
      exact (h.ends q).disconnect (h.committed_of_gone hgone) hpool
    · rw [manager_setManager_of_ne hq]
      exact h.ends q

/-- The dial of the larger device is not cancelled. -/
theorem Inv.begun_of_dialing (hst : (s.stage .larger .outgoing).Dialing) :
    s.stage .larger .outgoing = .begun := by
  have hnot : ∀ x : Stage, s.stage .larger .outgoing = x → x.Dropped → x = .skipped := by
    rintro x rfl hd
    exact ((h.ends .larger).kept_not_dropped hd).2
  rcases hst with hst | hst | hst
  · exact hst
  · exact absurd (hnot _ hst (by simp)) (by simp)
  · exact absurd (hnot _ hst (by simp)) (by simp)

theorem Inv.connect (hst : (s.stage p .outgoing).Dialing)
    (hin : s.stage p.other .incoming = .waiting) :
    Inv ids ((s.setStage p .outgoing (s.stage p .outgoing).linked).setStage p.other .incoming
      .opened) := by
  have hcommitted : s.Committed → ((s.setStage p .outgoing (s.stage p .outgoing).linked).setStage
      p.other .incoming .opened).Committed := by
    intro hc
    apply setStage_committed _ (by simp) (by simp)
    apply setStage_committed hc
    · rcases hst with hst | hst | hst <;> simp [hst, Stage.linked]
    · rcases hst with hst | hst | hst <;> simp [hst, Stage.linked]
  have hne : p ≠ p.other := by cases p <;> simp [Device.other]
  constructor
  · intro q
    rw [manager_setStage, manager_setStage]
    by_cases hq : q = p
    · subst hq
      rw [stage_setStage_of_ne hne, stage_setStage_self]
      exact ((h.ends q).linked hst).mono hcommitted
    · have hq' : q = p.other := by cases p <;> cases q <;> simp_all [other]
      subst hq'
      rw [stage_setStage_self, stage_setStage_of_ne hq]
      exact ((h.ends p.other).accept hin).mono hcommitted
  · cases p with
    | smaller => exact h.linked
    | larger =>
      have hbegun := h.begun_of_dialing hst
      simp [setStage, other, hbegun, Stage.linked]
  · intro hskip
    cases p with
    | smaller =>
      have hregistered := h.skipped hskip
      rw [show s.stage .larger .incoming = .waiting from hin] at hregistered
      simp at hregistered
    | larger =>
      have hbegun := h.begun_of_dialing hst
      simp [setStage, other, hbegun, Stage.linked] at hskip

end

theorem Inv.step (horderly : s.Orderly ids a) (hst : Step ids s a u) (h : Inv ids s) :
    Inv ids u := by
  cases hst with
  | skip hst hm => exact h.skip hst hm
  | note hst hm => exact h.note hst hm
  | clear hst => exact h.clear hst horderly
  | contend hst hm => exact h.contend hst hm
  | refuseIncoming hst hm => exact h.refuseIncoming hst hm
  | refuseOutgoing hst hm => exact h.refuseOutgoing hst hm
  | enter hst => exact h.enter hst
  | connect hst hin => exact h.connect hst hin
  | answer hst => exact h.answer hst
  | greeted hst _ => exact h.greeted hst
  | fail hst hin => exact h.fail hst hin
  | cancel hst hpending =>
    obtain rfl := horderly
    exact h.cancel hst hpending
  | decide hst => exact h.decide hst
  | register hst => exact h.register hst horderly
  | leave hst => exact h.leave hst
  | sessionEnd hr hgone => exact h.sessionEnd hr hgone horderly

/-- The larger device has dialed: its connection is kept. -/
theorem Inv.agree_larger (h : Inv ids s) (hfinished : s.Finished) (hcommitted : s.Committed) :
    s.pool ids p = some [endAt p (keptAt p)] := by
  have hlarger : (s.stage .larger .outgoing).Registered := by
    apply (hfinished .larger).1.registered
    intro hd
    exact hcommitted.2 ((h.ends .larger).kept_not_dropped hd).2
  cases p with
  | larger => exact (h.ends .larger).pool_of_kept hlarger
  | smaller =>
    have hin : s.stage .smaller .incoming ≠ .waiting := by
      rw [h.linked]
      rcases hlarger with he | he <;> rw [he] <;> rfl
    apply (h.ends .smaller).pool_of_kept
    apply ((hfinished .smaller).2.resolve_right hin).registered
    intro hd
    cases ((h.ends .smaller).kept_not_dropped hd).1

/-- The larger device was connected before it dialed. -/
theorem Inv.agree_smaller (h : Inv ids s) (hfinished : s.Finished) (hnot : ¬ s.Committed) :
    s.pool ids p = some [endAt p (keptAt p).other] := by
  have hskipped : s.stage .larger .outgoing = .skipped := by
    by_contra hne
    apply hnot
    refine ⟨fun hw => ?_, hne⟩
    have hended := (hfinished .larger).1
    simp [hw] at hended
  have hregistered : (s.stage p (keptAt p).other).Registered := by
    cases p with
    | larger => exact h.skipped hskipped
    | smaller =>
      apply (hfinished .smaller).1.registered
      intro hd
      exact hnot ((h.ends .smaller).committed_of_dropped hd)
  exact ((h.ends p).pool_of_other hregistered).resolve_left hnot

/-- Both devices have dialed. If the steps come in order, they have registered the same connection,
and neither has closed it. -/
theorem simultaneous_dial_agrees (hrun : Transition.Reach (Step ids) (Orderly ids) (start ids) s)
    (hfinished : s.Finished) :
    ∃ c, ∀ p, s.pool ids p = some [⟨c, typeAt p c⟩] ∧ (s.manager p).closed c = false := by
  have h : Inv ids s := hrun.invariant inv_start fun ho hst hinv => hinv.step ho hst
  by_cases hcommitted : s.Committed
  · refine ⟨.larger, fun p => ⟨?_, (h.ends p).kept_open⟩⟩
    rw [h.agree_larger hfinished hcommitted]
    cases p <;> rfl
  · refine ⟨.smaller, fun p => ⟨?_, ?_⟩⟩
    · rw [h.agree_smaller hfinished hcommitted]
      cases p <;> rfl
    · rw [Bool.eq_false_iff]
      exact fun hclosed => hcommitted ((h.ends p).committed_of_closed hclosed)

def twoDevices : DevicePair where
  smaller := ⟨[1]⟩
  larger := ⟨[2]⟩
  lt := by decide

/-- Both connections go through the Hello. The smaller device registers the one it has dialed at both
ends, and the other one replaces it. -/
theorem simultaneous_dial_agrees_rule : ∃ s,
    Transition.Reach (Step twoDevices) (Orderly twoDevices) (start twoDevices) s ∧ s.Finished ∧
      ∃ c, ∀ p, s.pool twoDevices p = some [⟨c, typeAt p c⟩] ∧ (s.manager p).closed c = false := by
  have idle : Transition.Reach (Step twoDevices) (Orderly twoDevices) (start twoDevices)
      (start twoDevices) := .refl
  have begun := idle
    |>.next (.note (p := .smaller) rfl rfl) trivial
    |>.next (.clear (p := .smaller) (t := .outgoing) rfl) (.inr rfl)
    |>.next (.contend (p := .smaller) (t := .outgoing) rfl rfl) trivial
    |>.next (.enter (p := .smaller) (t := .outgoing) rfl) trivial
    |>.next (.connect (p := .smaller) (.inl rfl) rfl) trivial
    |>.next (.clear (p := .larger) (t := .incoming) rfl) (.inr rfl)
    |>.next (.contend (p := .larger) (t := .incoming) rfl rfl) trivial
    |>.next (.enter (p := .larger) (t := .incoming) rfl) trivial
    |>.next (.note (p := .larger) rfl rfl) trivial
    |>.next (.clear (p := .larger) (t := .outgoing) rfl) (.inl rfl)
    |>.next (.contend (p := .larger) (t := .outgoing) rfl rfl) trivial
    |>.next (.enter (p := .larger) (t := .outgoing) rfl) trivial
    |>.next (.connect (p := .larger) (.inl rfl) rfl) trivial
    |>.next (.clear (p := .smaller) (t := .incoming) rfl) (.inl rfl)
    |>.next (.contend (p := .smaller) (t := .incoming) rfl rfl) trivial
    |>.next (.enter (p := .smaller) (t := .incoming) rfl) trivial
  have greeted := begun
    |>.next (.answer (p := .larger) rfl) trivial
    |>.next (.greeted (p := .smaller) rfl trivial) trivial
    |>.next (.answer (p := .smaller) rfl) trivial
    |>.next (.greeted (p := .larger) rfl trivial) trivial
  have registered := greeted
    |>.next (.decide (p := .smaller) (t := .outgoing) rfl) trivial
    |>.next (.register (p := .smaller) (t := .outgoing) rfl) (.inr rfl)
    |>.next (.decide (p := .larger) (t := .incoming) rfl) trivial
    |>.next (.register (p := .larger) (t := .incoming) rfl) (.inr rfl)
    |>.next (.decide (p := .smaller) (t := .incoming) rfl) trivial
    |>.next (.register (p := .smaller) (t := .incoming) rfl) (.inl rfl)
    |>.next (.decide (p := .larger) (t := .outgoing) rfl) trivial
    |>.next (.register (p := .larger) (t := .outgoing) rfl) (.inl rfl)
    |>.next (.leave (p := .smaller) (t := .outgoing) rfl) trivial
    |>.next (.leave (p := .larger) (t := .incoming) rfl) trivial
    |>.next (.leave (p := .smaller) (t := .incoming) rfl) trivial
    |>.next (.leave (p := .larger) (t := .outgoing) rfl) trivial
  refine ⟨_, registered, ?_, simultaneous_dial_agrees registered ?_⟩ <;>
    rintro (_ | _) <;> exact ⟨trivial, .inl trivial⟩

/-- Both devices have registered the connection of the larger one when the other connection arrives
there. The larger device replaces the registered connection by it, the smaller one rejects it: each
keeps a connection that the other has closed. -/
theorem simultaneous_dial_disagrees : ∃ s,
    Transition.Reach (Step twoDevices) (fun _ _ => True) (start twoDevices) s ∧ s.Finished ∧
      (s.pool twoDevices .smaller = some [⟨.larger, .incoming⟩] ∧
        (s.manager .larger).closed .larger = true) ∧
      (s.pool twoDevices .larger = some [⟨.smaller, .incoming⟩] ∧
        (s.manager .smaller).closed .smaller = true) := by
  have idle : Transition.Reach (Step twoDevices) (fun _ _ => True) (start twoDevices)
      (start twoDevices) := .refl
  have both := idle
    |>.go (.note (p := .smaller) rfl rfl)
    |>.go (.clear (p := .smaller) (t := .outgoing) rfl)
    |>.go (.contend (p := .smaller) (t := .outgoing) rfl rfl)
    |>.go (.enter (p := .smaller) (t := .outgoing) rfl)
    |>.go (.note (p := .larger) rfl rfl)
    |>.go (.clear (p := .larger) (t := .outgoing) rfl)
    |>.go (.contend (p := .larger) (t := .outgoing) rfl rfl)
    |>.go (.enter (p := .larger) (t := .outgoing) rfl)
    |>.go (.connect (p := .larger) (.inl rfl) rfl)
    |>.go (.connect (p := .smaller) (.inl rfl) rfl)
  have kept := both
    |>.go (.clear (p := .smaller) (t := .incoming) rfl)
    |>.go (.contend (p := .smaller) (t := .incoming) rfl rfl)
    |>.go (.enter (p := .smaller) (t := .incoming) rfl)
    |>.go (.answer (p := .smaller) rfl)
    |>.go (.greeted (p := .larger) rfl trivial)
    |>.go (.decide (p := .larger) (t := .outgoing) rfl)
    |>.go (.register (p := .larger) (t := .outgoing) rfl)
    |>.go (.leave (p := .larger) (t := .outgoing) rfl)
    |>.go (.decide (p := .smaller) (t := .incoming) rfl)
    |>.go (.register (p := .smaller) (t := .incoming) rfl)
    |>.go (.leave (p := .smaller) (t := .incoming) rfl)
  have late := kept
    |>.go (.clear (p := .larger) (t := .incoming) rfl)
    |>.go (.contend (p := .larger) (t := .incoming) rfl rfl)
    |>.go (.enter (p := .larger) (t := .incoming) rfl)
    |>.go (.answer (p := .larger) rfl)
    |>.go (.greeted (p := .smaller) rfl trivial)
    |>.go (.decide (p := .larger) (t := .incoming) rfl)
    |>.go (.register (p := .larger) (t := .incoming) rfl)
    |>.go (.leave (p := .larger) (t := .incoming) rfl)
    |>.go (.decide (p := .smaller) (t := .outgoing) rfl)
    |>.go (.register (p := .smaller) (t := .outgoing) rfl)
    |>.go (.leave (p := .smaller) (t := .outgoing) rfl)
  refine ⟨_, late, ?_, ⟨rfl, rfl⟩, rfl, rfl⟩
  rintro (_ | _) <;> exact ⟨trivial, .inl trivial⟩

end Race
end Syncthing
