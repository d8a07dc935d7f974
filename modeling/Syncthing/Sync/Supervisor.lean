import Syncthing.Lib.Transition
import Mathlib.Algebra.Group.Nat.Defs

/-! `syncthing-sync/src/supervisor.rs`. The loop counts restarts in windows: the first exit after a
window is over begins the next one, so two windows can meet within `reset_after`. -/
namespace Syncthing

open Transition

inductive RestartPolicy where
  | always
  | onFailure
  | never

/-- How a run of the task ends. -/
inductive TaskExit where
  | done
  | failed
  | panicked

structure ExponentialBackoff where
  initialDelay : Nat
  maxDelay : Nat
  resetAfter : Nat

structure RestartConfig where
  restartPolicy : RestartPolicy
  backoff : ExponentialBackoff
  maxRestarts : UInt32

def ExponentialBackoff.nextDelay (b : ExponentialBackoff) (attempt : UInt32) : Nat :=
  min (b.initialDelay * 2 ^ min attempt.toNat 31) b.maxDelay

def RestartPolicy.shouldRestart : RestartPolicy → TaskExit → Bool
  | always, _ | onFailure, .failed | onFailure, .panicked => true
  | onFailure, .done | never, _ => false

/-- The variables of the loop, the time, and when the task was started again. -/
structure Supervision where
  attempt : UInt32
  restartCount : UInt32
  windowStart : Nat
  clock : Nat
  restarts : List Nat

/-- The task ends at `now`, and is started again at `restart` unless the supervisor returns. -/
structure TaskRun where
  exit : TaskExit
  now : Nat
  restart : Nat

namespace Supervision

variable {c : RestartConfig} {s t : Supervision} {e : TaskRun} {now : Nat}

def start (now : Nat) : Supervision := ⟨0, 0, now, now, []⟩

variable (c) (s)

/-- A window that is over is followed by the next one. -/
def window (now : Nat) : Supervision :=
  if c.backoff.resetAfter < now - s.windowStart then { s with windowStart := now, restartCount := 0 }
  else s

/-- What follows on an exit; `none` if the supervisor returns. -/
def exited (exit : TaskExit) (now : Nat) : Option Supervision :=
  if !c.restartPolicy.shouldRestart exit then none
  else
    let s := s.window c now
    if c.maxRestarts < s.restartCount + 1 then none
    else some { s with attempt := s.attempt + 1, restartCount := s.restartCount + 1 }

def delay : Nat :=
  if 0 < s.attempt then c.backoff.nextDelay (s.attempt - 1) else 0

variable {c} {s}

inductive Step (c : RestartConfig) (s : Supervision) (e : TaskRun) : Supervision → Prop where
  | restart {u} (hnow : s.clock ≤ e.now) (hexit : s.exited c e.exit e.now = some u)
      (hdelay : e.now + u.delay c ≤ e.restart) :
      Step c s e { u with clock := e.restart, restarts := e.restart :: u.restarts }

/-- No interval of length `reset_after` has more restarts than allowed. -/
def Bounded (c : RestartConfig) (s : Supervision) : Prop :=
  ∀ a b, b ≤ a + c.backoff.resetAfter →
    s.restarts.countP (fun x => a ≤ x ∧ x ≤ b) ≤ c.maxRestarts.toNat

/-- A window begins later than `reset_after` after all restarts, and the counter does not wrap. -/
def Apart (c : RestartConfig) (s : Supervision) (e : TaskRun) : Prop :=
  s.restartCount + 1 ≠ 0 ∧ (c.backoff.resetAfter < e.now - s.windowStart →
    ∀ x ∈ s.restarts, x + c.backoff.resetAfter < e.now)

/-- The restarts that an interval can share with the window are those counted. -/
structure Counted (c : RestartConfig) (s : Supervision) : Prop where
  bounded : s.Bounded c
  recent : s.restarts.countP (fun x => s.windowStart ≤ x + c.backoff.resetAfter) ≤
    s.restartCount.toNat
  begun : s.windowStart ≤ s.clock

theorem toNat_succ {n : UInt32} (h : n + 1 ≠ 0) : (n + 1).toNat = n.toNat + 1 := by
  have hlt := n.toNat_lt
  have hne : (n + 1).toNat ≠ 0 := fun heq => h (UInt32.toNat_inj.mp heq)
  simp only [UInt32.toNat_add, UInt32.toNat_one] at hne ⊢
  omega

theorem Counted.window (h : Counted c s) (he : s.Apart c e) (hnow : s.clock ≤ e.now) :
    (s.window c e.now).restarts = s.restarts ∧ (s.window c e.now).windowStart ≤ e.now ∧
      s.restarts.countP (fun x => (s.window c e.now).windowStart ≤ x + c.backoff.resetAfter) + 1 ≤
        ((s.window c e.now).restartCount + 1).toNat := by
  unfold Supervision.window
  split
  next hover =>
    refine ⟨rfl, Nat.le_refl _, ?_⟩
    have hnone : s.restarts.countP (fun x => e.now ≤ x + c.backoff.resetAfter) = 0 :=
      List.countP_eq_zero.mpr fun x hx => by simpa using he.2 hover x hx
    simp [hnone]
  · refine ⟨rfl, Nat.le_trans h.begun hnow, ?_⟩
    rw [toNat_succ he.1]
    exact Nat.succ_le_succ h.recent

theorem Counted.step (he : s.Apart c e) (hs : Step c s e t) (h : Counted c s) : Counted c t := by
  obtain ⟨hnow, hexit, hdelay⟩ := hs
  obtain ⟨hsame, hbegun, hrecent⟩ := h.window he hnow
  simp only [exited] at hexit
  split at hexit
  · cases hexit
  split at hexit
  · cases hexit
  next hfew =>
    cases hexit
    have hmax := UInt32.le_iff_toNat_le.mp (UInt32.not_lt.mp hfew)
    have hrestart : e.now ≤ e.restart := by omega
    have hcount : (e.restart :: s.restarts).countP (fun x =>
        (s.window c e.now).windowStart ≤ x + c.backoff.resetAfter) ≤ _ :=
      Nat.le_trans (by rw [List.countP_cons]; split <;> omega) hrecent
    simp only [hsame]
    refine ⟨fun a b hab => ?_, hcount, by simp; omega⟩
    by_cases hin : a ≤ e.restart ∧ e.restart ≤ b
    · -- an interval with the new restart has only restarts that the window counts
      refine Nat.le_trans (List.countP_mono_left fun x _ hx => ?_) (Nat.le_trans hcount hmax)
      simp only [decide_eq_true_eq] at hx ⊢
      omega
    · simpa [List.countP_cons, hin] using h.bounded a b hab

/-- A run whose windows begin late enough never starts the task too often. -/
theorem restarts_bounded {run : List (Supervision × TaskRun)}
    (h : Run (Step c) (start now) run t) (hok : ∀ x ∈ run, x.1.Apart c x.2) : t.Bounded c :=
  (h.invariant (I := Counted c) ⟨by simp [Bounded, start], by simp [start], Nat.le_refl _⟩
    (fun he hs h => h.step he hs) hok).bounded

/-- One restart is allowed in every interval of length one. -/
def oneRestart : RestartConfig := ⟨.always, ⟨0, 0, 1⟩, 1⟩

theorem run_oneRestart :
    Run (Step oneRestart) (start 0) [(start 0, ⟨.done, 1, 1⟩)] ⟨1, 1, 0, 1, [1]⟩ :=
  Run.nil.snoc (@Step.restart _ _ _ ⟨1, 1, 0, 0, []⟩ (by decide) rfl (by decide))

/-- The second restart is in a window that begins late enough. -/
theorem restarts_bounded_twice : ∃ run t, Run (Step oneRestart) (start 0) run t ∧
    t.restarts = [3, 1] ∧ t.Bounded oneRestart := by
  have hrun := run_oneRestart.snoc
    (@Step.restart _ _ ⟨.done, 3, 3⟩ ⟨2, 1, 3, 1, [1]⟩ (by decide) rfl (by decide))
  exact ⟨_, _, hrun, rfl, restarts_bounded hrun (by simp [Apart, start, oneRestart])⟩

/-- A window ends right after its last restart. -/
theorem restarts_unbounded : ∃ run t, Run (Step oneRestart) (start 0) run t ∧
    t.restarts = [2, 1] ∧ ¬ t.Bounded oneRestart := by
  refine ⟨_, _, run_oneRestart.snoc (@Step.restart _ _ ⟨.done, 2, 2⟩ _ ?_ rfl ?_), rfl, fun h => ?_⟩
  · decide
  · decide
  · exact absurd (h 1 2 (by decide)) (by decide)

end Supervision

end Syncthing
