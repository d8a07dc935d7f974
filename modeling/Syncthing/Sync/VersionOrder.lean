import Syncthing.Sync.ConflictResolver
import Mathlib.Algebra.Group.Nat.Defs

/-! The laws that the comparisons of version vectors obey together. -/
namespace Syncthing

open Syncthing.Vector

namespace Vector

variable {u v w : Vector} {d : UInt64}

theorem dominates_refl (v : Vector) : v.dominates v = true := dominates_iff.mpr (le_refl v.get)

theorem dominates_trans (huv : u.dominates v = true) (hvw : v.dominates w = true) :
    u.dominates w = true := by
  rw [dominates_iff] at huv hvw ⊢
  exact le_trans hvw huv

theorem dominates_both_iff :
    v.dominates w = true ∧ w.dominates v = true ↔ ∀ d, v.get d = w.get d := by
  rw [dominates_iff, dominates_iff]
  constructor
  · rintro ⟨hwv, hvw⟩ d
    exact le_antisymm (hvw d) (hwv d)
  · intro h
    exact ⟨fun d => (h d).ge, fun d => (h d).le⟩

theorem compare_eq_conflict_iff : v.compare w = .conflict ↔ ¬ v.get ≤ w.get ∧ ¬ w.get ≤ v.get := by
  rw [compare_eq, ← dominates_iff, ← dominates_iff]
  cases v.dominates w <;> cases w.dominates v <;> simp

/-- A loop that returns an order has met it, and the other one after it. -/
theorem direction_of_concurrentLoop_eq_some {first : Option ConcurrentOrder} {ids : List UInt64}
    {dir : ConcurrentOrder} (h : concurrentLoop v w first ids = some dir) :
    (first = some dir ∨ ∃ id, direction v w id = some dir) ∧
      ∃ id, direction v w id = some dir.swap := by
  induction ids generalizing first with
  | nil => cases h
  | cons id ids ih =>
    rw [concurrentLoop_cons] at h
    cases hdir : direction v w id with
    | none =>
      rw [hdir] at h
      exact ih h
    | some dir' =>
      cases first with
      | none =>
        rw [hdir] at h
        obtain ⟨hfirst, hswap⟩ := ih h
        refine ⟨.inr ?_, hswap⟩
        rcases hfirst with hfirst | hmet
        · cases hfirst
          exact ⟨id, hdir⟩
        · exact hmet
      | some f =>
        simp only [hdir] at h
        split at h
        · exact ih h
        next hne =>
          cases h
          refine ⟨.inl rfl, id, ?_⟩
          rw [hdir]
          cases dir <;> cases dir' <;> simp_all [ConcurrentOrder.swap]

theorem direction_eq_selfGreater_iff : direction v w d = some .selfGreater ↔ w.get d < v.get d := by
  unfold direction
  split
  · simp_all
  · split <;> simp_all

theorem direction_eq_otherGreater_iff :
    direction v w d = some .otherGreater ↔ v.get d < w.get d := by
  unfold direction
  split
  next h => simp [h.le]
  · split <;> simp_all

/-- `concurrent_order` gives a direction to concurrent vectors and to no others. -/
theorem concurrentOrder_isSome_iff :
    (v.concurrentOrder w).isSome = true ↔ ¬ v.get ≤ w.get ∧ ¬ w.get ≤ v.get := by
  constructor
  · intro h
    obtain ⟨dir, hdir⟩ := Option.isSome_iff_exists.mp h
    obtain ⟨hfirst, j, hj⟩ := direction_of_concurrentLoop_eq_some hdir
    obtain ⟨i, hi⟩ := hfirst.resolve_left (by simp)
    have hlt : ∀ {a b : Vector} {k}, a.get k < b.get k → ¬ b.get ≤ a.get :=
      fun hk hle => absurd (hle _) (not_le.mpr hk)
    cases dir with
    | selfGreater =>
      exact ⟨hlt (direction_eq_selfGreater_iff.mp hi), hlt (direction_eq_otherGreater_iff.mp hj)⟩
    | otherGreater =>
      exact ⟨hlt (direction_eq_selfGreater_iff.mp hj), hlt (direction_eq_otherGreater_iff.mp hi)⟩
  · rintro ⟨hvw, hwv⟩
    obtain ⟨dir, hdir⟩ := exists_concurrentOrder hvw hwv
    rw [hdir, Option.isSome_some]

/-- A counter that does not overflow grows. -/
theorem get_lt_succ (h : (v.get d).toNat < 2 ^ 64 - 1) : v.get d < v.get d + 1 := by
  rw [UInt64.lt_iff_toNat_lt, UInt64.toNat_add, UInt64.toNat_one, Nat.mod_eq_of_lt]
  · exact Nat.lt_succ_self _
  · omega

theorem increment_strictly_dominates (h : (v.get d).toNat < 2 ^ 64 - 1) :
    (v.increment d).dominates v = true ∧ v.dominates (v.increment d) = false := by
  have hlt := get_lt_succ h
  constructor
  · rw [dominates_iff]
    intro e
    rw [get_increment]
    split
    next he => exact he ▸ hlt.le
    · exact le_refl _
  · rw [Bool.eq_false_iff, ne_eq, dominates_iff]
    intro hle
    have hd := hle d
    rw [get_increment, if_pos rfl] at hd
    exact absurd hlt (not_lt.mpr hd)

end Vector

/-- The comparisons of versions, written four times in the source, are one order. -/
theorem version_order_consistent (a b c : Vector) : compareVersions a b = a.compare b ∧
    a.dominates a = true ∧
    (a.dominates b = true → b.dominates c = true → a.dominates c = true) ∧
    (a.dominates b = true ∧ b.dominates a = true ↔ ∀ d, a.get d = b.get d) ∧
    (∀ localFile remote : FileInfo, localFile.version = a → remote.version = b →
      (isConflict localFile remote = true ↔ a.compare b = .conflict) ∧
        (isConflict localFile remote = true ↔ (a.concurrentOrder b).isSome = true)) ∧
    b.concurrentOrder a = (a.concurrentOrder b).map ConcurrentOrder.swap ∧
    ∀ d, (a.get d).toNat < 2 ^ 64 - 1 →
      (a.increment d).dominates a = true ∧ a.dominates (a.increment d) = false := by
  refine ⟨compareVersions_eq, a.dominates_refl, dominates_trans, dominates_both_iff,
    ?_, concurrentOrder_comm a b, fun d => increment_strictly_dominates⟩
  rintro localFile remote rfl rfl
  have hconflict : isConflict localFile remote = true ↔
      ¬ localFile.version.get ≤ remote.version.get ∧ ¬ remote.version.get ≤ localFile.version.get :=
    isConflict_iff.trans and_comm
  exact ⟨hconflict.trans compare_eq_conflict_iff.symm,
    hconflict.trans concurrentOrder_isSome_iff.symm⟩

end Syncthing
