import Mathlib.Order.Basic
import Std.Data.ExtTreeMap
import Std.Data.ExtTreeSet

/-! `Vector` of `syncthing-core/src/types/mod.rs`. Counters are `u64` with the wrapping addition of
a release build; the hash map is an extensional finite map. -/

instance linearOrderUInt64 : LinearOrder UInt64 where
  le_refl := UInt64.le_refl
  le_trans _ _ _ := UInt64.le_trans
  le_antisymm _ _ := UInt64.le_antisymm
  le_total := UInt64.le_total
  lt_iff_le_not_ge a b := by
    simp only [UInt64.lt_iff_toNat_lt, UInt64.le_iff_toNat_le]
    omega
  toDecidableLE := inferInstance
  min a b := if a ≤ b then a else b
  max a b := if a ≤ b then b else a

namespace Syncthing

/-- Maps a device counter ID to its counter value. -/
structure Vector where
  counters : Std.ExtTreeMap UInt64 UInt64
  deriving DecidableEq

/-- Result of comparing two version vectors. -/
inductive VersionComparison where
  | equal
  | greater
  | less
  | conflict
  deriving DecidableEq

/-- Direction of the first diverging counter of two concurrent vectors. -/
inductive ConcurrentOrder where
  | selfGreater
  | otherGreater
  deriving DecidableEq

def ConcurrentOrder.swap : ConcurrentOrder → ConcurrentOrder
  | .selfGreater => .otherGreater
  | .otherGreater => .selfGreater

open ConcurrentOrder (swap)

namespace Vector

def new : Vector := ⟨∅⟩

variable (v : Vector)

def withCounter (deviceId counter : UInt64) : Vector := ⟨v.counters.insert deviceId counter⟩

variable (deviceId : UInt64)

def get : UInt64 := v.counters.getD deviceId 0

def increment : Vector := ⟨v.counters.insert deviceId (v.get deviceId + 1)⟩

variable (v w : Vector)

/-- The ids of both vectors, in ascending order. -/
def allDevices : List UInt64 := (Std.ExtTreeSet.ofList (v.counters.keys ++ w.counters.keys)).toList

def compare : VersionComparison :=
  let hasGreater := (allDevices v w).any fun d => w.get d < v.get d
  let hasLess := (allDevices v w).any fun d => v.get d < w.get d
  match hasGreater, hasLess with
  | true, true => .conflict
  | true, false => .greater
  | false, true => .less
  | false, false => .equal

def dominates : Bool := (allDevices v w).all fun d => !decide (v.get d < w.get d)

/-- The loop of `concurrent_order`: `first` is the first direction met so far. -/
def concurrentLoop (v w : Vector) (first : Option ConcurrentOrder) :
    List UInt64 → Option ConcurrentOrder
  | [] => none
  | id :: ids =>
    let dir? : Option ConcurrentOrder :=
      if w.get id < v.get id then some .selfGreater
      else if v.get id < w.get id then some .otherGreater
      else none
    match dir?, first with
    | none, _ => concurrentLoop v w first ids
    | some dir, none => concurrentLoop v w (some dir) ids
    | some dir, some d => if d = dir then concurrentLoop v w first ids else first

def concurrentOrder : Option ConcurrentOrder := concurrentLoop v w none (allDevices v w)

variable {v w : Vector} {d e : UInt64} {ids : List UInt64} {first : Option ConcurrentOrder}

@[simp] theorem get_increment : (v.increment d).get e = if d = e then v.get d + 1 else v.get e := by
  simp [increment, get, Std.ExtTreeMap.getD_insert]

@[simp] theorem mem_allDevices : d ∈ allDevices v w ↔ d ∈ v.counters ∨ d ∈ w.counters := by
  simp [allDevices]

/-- An id outside both key lists has a zero counter on both sides. -/
theorem get_eq_zero_of_notMem (h : d ∉ v.counters) : v.get d = 0 :=
  Std.ExtTreeMap.getD_eq_fallback h

/-- A counter that differs anywhere differs at an id the loops visit. -/
theorem exists_allDevices_iff {p : UInt64 → UInt64 → Prop} (hp : ¬ p 0 0) :
    (∃ d ∈ allDevices v w, p (v.get d) (w.get d)) ↔ ∃ d, p (v.get d) (w.get d) := by
  constructor
  · rintro ⟨d, _, h⟩
    exact ⟨d, h⟩
  · rintro ⟨d, h⟩
    refine ⟨d, ?_, h⟩
    by_contra hd
    rw [mem_allDevices, not_or] at hd
    rw [get_eq_zero_of_notMem hd.1, get_eq_zero_of_notMem hd.2] at h
    exact hp h

/-- `dominates` is the pointwise order, an absent counter counting as zero. -/
theorem dominates_iff : v.dominates w = true ↔ w.get ≤ v.get := by
  have h := exists_allDevices_iff (v := v) (w := w) (p := fun a b => a < b) (lt_irrefl 0)
  simp only [dominates, List.all_eq_true, Bool.not_eq_true', decide_eq_false_iff_not, Pi.le_def,
    ← not_lt]
  constructor
  · intro hd i hi
    obtain ⟨d, hm, hlt⟩ := h.mpr ⟨i, hi⟩
    exact hd d hm hlt
  · intro hd d _
    exact hd d

theorem allDevices_comm (v w : Vector) : allDevices v w = allDevices w v := by
  unfold allDevices
  congr 1
  ext d
  simp [or_comm]

/-- The verdict of `compare` is read off domination in both directions. -/
theorem compare_eq : v.compare w =
    match v.dominates w, w.dominates v with
    | true, true => .equal
    | true, false => .greater
    | false, true => .less
    | false, false => .conflict := by
  have hg : (allDevices v w).any (fun d => w.get d < v.get d) = !w.dominates v := by
    simp [dominates, allDevices_comm w v, List.not_all_eq_any_not]
  have hl : (allDevices v w).any (fun d => v.get d < w.get d) = !v.dominates w := by
    simp [dominates, List.not_all_eq_any_not]
  simp only [compare, hg, hl]
  cases v.dominates w <;> cases w.dominates v <;> rfl

/-- Which vector has the greater counter of a device. -/
def direction (v w : Vector) (id : UInt64) : Option ConcurrentOrder :=
  if w.get id < v.get id then some .selfGreater
  else if v.get id < w.get id then some .otherGreater
  else none

theorem direction_comm (v w : Vector) (id : UInt64) :
    direction w v id = (direction v w id).map swap := by
  unfold direction
  rcases lt_trichotomy (v.get id) (w.get id) with h | h | h
  · simp [h, h.asymm, swap]
  · simp [h]
  · simp [h, h.asymm, swap]

theorem concurrentLoop_cons {id : UInt64} : concurrentLoop v w first (id :: ids) =
      match direction v w id, first with
      | none, _ => concurrentLoop v w first ids
      | some dir, none => concurrentLoop v w (some dir) ids
      | some dir, some d => if d = dir then concurrentLoop v w first ids else first :=
  rfl

theorem concurrentLoop_comm (first : Option ConcurrentOrder) (ids : List UInt64) :
    concurrentLoop w v (first.map swap) ids = (concurrentLoop v w first ids).map swap := by
  induction ids generalizing first with
  | nil => rfl
  | cons id ids ih =>
    rw [concurrentLoop_cons, concurrentLoop_cons, direction_comm v w id]
    cases direction v w id with
    | none => exact ih first
    | some dir =>
      cases first with
      | none => exact ih (some dir)
      | some d =>
        have hswap : d.swap = dir.swap ↔ d = dir := by cases d <;> cases dir <;> decide
        simp only [Option.map_some, hswap]
        split
        · exact ih (some d)
        · rfl

/-- A loop that finds no order has met one direction at most. -/
theorem direction_of_concurrentLoop (h : concurrentLoop v w first ids = none) :
    ∃ d, (∀ f ∈ first, f = d) ∧ ∀ id ∈ ids, ∀ dir ∈ direction v w id, dir = d := by
  induction ids generalizing first with
  | nil => exact ⟨first.getD .selfGreater, by rintro f rfl; rfl, by simp⟩
  | cons id ids ih =>
    rw [concurrentLoop_cons] at h
    cases hdir : direction v w id with
    | none =>
      rw [hdir] at h
      obtain ⟨d, hfirst, hids⟩ := ih h
      refine ⟨d, hfirst, ?_⟩
      simpa [hdir] using hids
    | some dir =>
      cases first with
      | none =>
        rw [hdir] at h
        obtain ⟨d, hfirst, hids⟩ := ih h
        refine ⟨d, by simp, ?_⟩
        simpa [hdir] using ⟨hfirst dir rfl, hids⟩
      | some f =>
        simp only [hdir] at h
        split at h
        next hf =>
          obtain ⟨d, hfirst, hids⟩ := ih h
          refine ⟨d, hfirst, ?_⟩
          simpa [hdir, ← hf] using ⟨hfirst f rfl, hids⟩
        · cases h

theorem concurrentOrder_comm (v w : Vector) :
    concurrentOrder w v = (concurrentOrder v w).map swap := by
  unfold concurrentOrder
  rw [allDevices_comm w v]
  exact concurrentLoop_comm none _

/-- Concurrent vectors are ordered. -/
theorem exists_concurrentOrder (hvw : ¬ v.get ≤ w.get) (hwv : ¬ w.get ≤ v.get) :
    ∃ dir, concurrentOrder v w = some dir := by
  rw [← Option.ne_none_iff_exists']
  intro hnone
  obtain ⟨d, -, hids⟩ := direction_of_concurrentLoop hnone
  obtain ⟨i, hi⟩ := not_forall.mp hvw
  obtain ⟨j, hj⟩ := not_forall.mp hwv
  obtain ⟨i, hmi, hi⟩ := (exists_allDevices_iff (p := fun a b => b < a) (lt_irrefl 0)).mpr
    ⟨i, not_le.mp hi⟩
  obtain ⟨j, hmj, hj⟩ := (exists_allDevices_iff (p := fun a b => a < b) (lt_irrefl 0)).mpr
    ⟨j, not_le.mp hj⟩
  have hself : direction v w i = some .selfGreater := if_pos hi
  have hother : direction v w j = some .otherGreater := by
    unfold direction
    rw [if_neg hj.asymm, if_pos hj]
  have := (hids i hmi _ hself).trans (hids j hmj _ hother).symm
  cases this

end Vector
end Syncthing
