import Mathlib.Logic.Function.Basic
import Syncthing.Lib.Transition

/-! The limits of `orchestrator.rs`. The slots of scans and of pulls are those of a semaphore that
is made once, with the limit of that time. -/
namespace Syncthing

open Function Transition

inductive Work where
  | scan
  | pull
  deriving DecidableEq

/-- The semaphore and the counters of one kind of work, the calls that have a slot and no permit
yet, the permits, and the dropped permits whose slots are still taken. -/
structure Slots where
  capacity : Nat
  limit : Nat
  active : Nat := 0
  acquired : Nat := 0
  permits : Nat := 0
  dropped : Nat := 0

abbrev FolderOrchestrator := Work → Slots

namespace FolderOrchestrator

def withConfig (config : Work → Nat) : FolderOrchestrator := fun w =>
  { capacity := max (config w) 1, limit := max (config w) 1 }

inductive Event where
  | setConfig (config : Work → Nat)
  | acquire (w : Work)
  | grant (w : Work)
  | drop (w : Work)
  | release (w : Work)

inductive Step (o : FolderOrchestrator) : Event → FolderOrchestrator → Prop where
  | setConfig {config} : Step o (.setConfig config) fun w => { o w with limit := max (config w) 1 }
  | acquire {w} (h : (o w).acquired + (o w).permits + (o w).dropped < (o w).capacity) :
    Step o (.acquire w) (update o w { o w with acquired := (o w).acquired + 1 })
  | grant {w n} (h : (o w).acquired = n + 1) : Step o (.grant w) (update o w { o w with
      acquired := n, active := (o w).active + 1, permits := (o w).permits + 1 })
  | drop {w n} (h : (o w).permits = n + 1) : Step o (.drop w) (update o w { o w with
      active := (o w).active - 1, permits := n, dropped := (o w).dropped + 1 })
  | release {w n} (h : (o w).dropped = n + 1) :
    Step o (.release w) (update o w { o w with dropped := n })

variable {o o' : FolderOrchestrator} {config : Work → Nat}

/-- The slots are not overbooked and the permits are counted. -/
def Sound (s : Slots) : Prop :=
  s.active = s.permits ∧ s.acquired + s.permits + s.dropped ≤ s.capacity

theorem sound_step {e : Event} (hs : Step o e o') (h : ∀ w, Sound (o w)) : ∀ w, Sound (o' w) := by
  intro v
  obtain ⟨hactive, hslots⟩ := h v
  cases hs with
  | setConfig => exact ⟨hactive, hslots⟩
  | @acquire w | @grant w | @drop w | @release w =>
    by_cases hw : v = w
    · subst hw
      simp [Sound]
      omega
    · rw [update_of_ne hw]
      exact ⟨hactive, hslots⟩

/-- The counters are those of the permits, and a permit is granted below the limit unless that is
below the one of the start. -/
theorem granted_below_limit (h : Reach Step (fun _ _ => True) (withConfig config) o) :
    (∀ w, (o w).active = (o w).permits) ∧
      ∀ w o', (o w).capacity ≤ (o w).limit → Step o (.grant w) o' → (o w).active < (o w).limit := by
  have hsound := h.invariant (I := fun o => ∀ w, Sound (o w)) (fun w => ⟨rfl, Nat.zero_le _⟩)
    fun _ => sound_step
  refine ⟨fun w => (hsound w).1, fun w o' hlimit hs => ?_⟩
  obtain ⟨hactive, hslots⟩ := hsound w
  cases hs with
  | grant hacquired => omega

/-- After the limit is raised, a second scan begins beside the first. -/
theorem granted_second : ∃ o o', Reach Step (fun _ _ => True) (withConfig fun _ => 2) o ∧
    Step o (.grant .scan) o' ∧ (o .scan).active = 1 ∧ (o .scan).limit = 3 ∧
    (o .scan).active < (o .scan).limit ∧ (o' .scan).active = (o' .scan).permits :=
  have h := Reach.refl.go (.acquire (w := .scan) (by decide)) |>.go (.grant (w := .scan) rfl)
    |>.go (@Step.setConfig _ fun _ => 3) |>.go (.acquire (w := .scan) (by decide))
  have hgrant := Step.grant (w := .scan) rfl
  ⟨_, _, h, hgrant, rfl, rfl, (granted_below_limit h).2 _ _ (by decide) hgrant,
    (granted_below_limit (h.go hgrant)).1 _⟩

/-- After the limit is lowered to one, a second scan begins beside the first. -/
theorem granted_above_limit : ∃ o o', Reach Step (fun _ _ => True) (withConfig fun _ => 2) o ∧
    Step o (.grant .scan) o' ∧ (o .scan).active = 1 ∧ (o .scan).limit = 1 :=
  ⟨_, _, Reach.refl.go (.acquire (w := .scan) (by decide)) |>.go (.grant (w := .scan) rfl)
    |>.go (@Step.setConfig _ fun _ => 1) |>.go (.acquire (w := .scan) (by decide)),
    .grant rfl, rfl, rfl⟩

end FolderOrchestrator

end Syncthing
