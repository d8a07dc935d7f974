import Mathlib.Data.List.Dedup
import Mathlib.Data.List.Infix
import Mathlib.Data.Set.Insert

/-! A directory tree as the nodes found at its paths. -/

/-- What is at each path, with a list of all the paths that hold something. -/
structure FileStore (κ ν : Type*) where
  node : List κ → Option ν
  paths : List (List κ)
  listed : ∀ {p}, (node p).isSome → p ∈ paths

namespace FileStore

open List

variable {κ ν : Type*} [DecidableEq κ] {t : FileStore κ ν} {p q src dst : List κ} {x : ν}

def empty : FileStore κ ν := ⟨fun _ => none, [], by simp⟩

variable (t) (p)

def set (x : ν) : FileStore κ ν where
  node q := if q = p then some x else t.node q
  paths := p :: t.paths
  listed {q} h := by
    by_cases hq : q = p
    · simp [hq]
    · simp only [hq, if_false] at h
      exact mem_cons_of_mem _ (t.listed h)

def remove : FileStore κ ν where
  node q := if q = p then none else t.node q
  paths := t.paths
  listed {q} h := by
    by_cases hq : q = p
    · simp [hq] at h
    · simp only [hq, if_false] at h
      exact t.listed h

/-- Removes what is at and below `p`. -/
def removeTree : FileStore κ ν where
  node q := if p <+: q then none else t.node q
  paths := t.paths
  listed {q} h := by
    by_cases hq : p <+: q
    · simp [hq] at h
    · simp only [hq, if_false] at h
      exact t.listed h

variable {p}

/-- Fills the missing paths on the way to `p`, `p` included. -/
def fill (x : ν) (p : List κ) : FileStore κ ν where
  node q := if q <+: p then (t.node q).or (some x) else t.node q
  paths := p.inits ++ t.paths
  listed {q} h := by
    by_cases hq : q <+: p
    · exact mem_append_left _ ((mem_inits _ _).mpr hq)
    · simp only [hq, if_false] at h
      exact mem_append_right _ (t.listed h)

/-- Moves what is at and below `src` to `dst`, replacing what was there. -/
def move (src dst : List κ) : FileStore κ ν where
  node q :=
    if dst <+: q then t.node (src ++ q.drop dst.length)
    else if src <+: q then none else t.node q
  paths := t.paths ++ (t.paths.filter (src <+: ·)).map fun q => dst ++ q.drop src.length
  listed {q} h := by
    by_cases hd : dst <+: q
    · simp only [hd, if_true] at h
      have hmem := t.listed h
      refine mem_append_right _ (mem_map.mpr ⟨src ++ q.drop dst.length, ?_, ?_⟩)
      · simpa using hmem
      · obtain ⟨rest, rfl⟩ := hd
        simp
    · simp only [hd, if_false] at h
      by_cases hs : src <+: q
      · simp [hs] at h
      · simp only [hs, if_false] at h
        exact mem_append_left _ (t.listed h)

/-- The paths directly below `p`. -/
def children (p : List κ) : List (List κ) :=
  t.paths.dedup.filter fun q => q ≠ [] ∧ q.dropLast = p ∧ (t.node q).isSome

variable {t}

@[simp] theorem node_set : (t.set p x).node q = if q = p then some x else t.node q := rfl

@[simp] theorem node_remove : (t.remove p).node q = if q = p then none else t.node q := rfl

theorem node_fill_of_isSome (h : (t.node q).isSome) : (t.fill x p).node q = t.node q := by
  obtain ⟨y, hy⟩ := Option.isSome_iff_exists.mp h
  simp [fill, hy]

/-- A moved leaf: the destination holds it and paths that do not run through either end keep
what they had. -/
theorem node_move_dst : (t.move src dst).node dst = t.node src := by
  simp [move]

theorem node_move_of_not_le (hd : ¬ dst <+: q) (hs : ¬ src <+: q) :
    (t.move src dst).node q = t.node q := by
  simp [move, hd, hs]

/-- The paths at and below `p`. -/
def under (p : List κ) : Set (List κ) := {q | p <+: q}

/-- The two trees differ at most inside `S`. -/
def SameOutside (S : Set (List κ)) (t t' : FileStore κ ν) : Prop := ∀ q ∉ S, t'.node q = t.node q

section frame
variable {S S' : Set (List κ)} {t' t'' : FileStore κ ν}

omit [DecidableEq κ] in
theorem SameOutside.refl : SameOutside S t t := fun _ _ => rfl

omit [DecidableEq κ] in
theorem SameOutside.trans (h : SameOutside S t t') (h' : SameOutside S t' t'') :
    SameOutside S t t'' := fun q hq => (h' q hq).trans (h q hq)

omit [DecidableEq κ] in
theorem SameOutside.mono (h : SameOutside S t t') (hs : S ⊆ S') : SameOutside S' t t' :=
  fun q hq => h q fun hmem => hq (hs hmem)

theorem sameOutside_set (h : p ∈ S) : SameOutside S t (t.set p x) := by
  intro q hq
  rw [node_set, if_neg]
  rintro rfl
  exact hq h

theorem sameOutside_remove (h : p ∈ S) : SameOutside S t (t.remove p) := by
  intro q hq
  rw [node_remove, if_neg]
  rintro rfl
  exact hq h

theorem sameOutside_removeTree : SameOutside (under p) t (t.removeTree p) :=
  fun _ hq => if_neg hq

theorem sameOutside_move : SameOutside (under src ∪ under dst) t (t.move src dst) := by
  intro q hq
  rw [Set.mem_union, not_or] at hq
  exact node_move_of_not_le hq.2 hq.1

end frame

theorem nodup_children : (t.children p).Nodup := (nodup_dedup _).filter _

theorem mem_children : q ∈ t.children p ↔ q ≠ [] ∧ q.dropLast = p ∧ (t.node q).isSome := by
  simp only [children, mem_filter, mem_dedup, decide_eq_true_eq]
  exact ⟨fun h => h.2, fun h => ⟨t.listed h.2.2, h⟩⟩

end FileStore
