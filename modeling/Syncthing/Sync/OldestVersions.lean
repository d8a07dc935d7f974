import Syncthing.Sync.VersionIsolation

/-! Cleaning a staggered archive keeps the oldest version of a file only if it is a step older than
the version kept before it. -/
namespace Syncthing

open List VersionedFolder Archived

section windows
variable (maxAgeDays : Option Nat)

/-- A version of the given age is at least the step of its own window older than the one before. -/
def StepOlder (prev age : Int) : Prop :=
  0 < findStep maxAgeDays age ∧ findStep maxAgeDays age ≤ age - prev

instance (prev age : Int) : Decidable (StepOlder maxAgeDays prev age) :=
  inferInstanceAs (Decidable (_ ∧ _))

/-- The age of the version that is kept last when the ages come youngest first: the youngest stays,
and after it each that is a step older than the one kept before. -/
def lastKept : Option Int → List Int → Option Int
  | prev, [] => prev
  | none, age :: ages => lastKept (some age) ages
  | some prev, age :: ages => lastKept (some (if StepOlder maxAgeDays prev age then age else prev)) ages

variable {maxAgeDays : Option Nat} {α : Type} {x : α} {age p : Int} {l : List (α × Int)}

theorem stepOlder_iff : StepOlder maxAgeDays p age ↔
    0 < findStep maxAgeDays age ∧ 0 < (age - p).tdiv (findStep maxAgeDays age) := by
  refine and_congr_right fun hstep => ?_
  constructor
  · intro h
    exact Int.le_tdiv_of_mul_le hstep (by simpa using h)
  · intro h
    by_contra hlt
    rcases Int.le_total 0 (age - p) with hpos | hneg
    · rw [Int.tdiv_eq_zero_of_lt hpos (not_le.mp hlt)] at h
      exact lt_irrefl _ h
    · exact absurd h (not_lt.mpr (by simpa using Int.tdiv_le_tdiv hstep hneg))

/-- The last version is removed if it is not a step older than the one kept before it. -/
theorem mem_windowRemovals_concat {prev : Option Int} (hx : x ∉ l.map Prod.fst)
    (hl : ∀ y ∈ l ++ [(x, age)], y.2 ≤ maxAgeSecs maxAgeDays) :
    x ∈ windowRemovals maxAgeDays prev (l ++ [(x, age)]) ↔
      ∃ p, lastKept maxAgeDays prev (l.map Prod.snd) = some p ∧ ¬ StepOlder maxAgeDays p age := by
  induction l generalizing prev with
  | nil =>
    have hage : ¬ (maxAgeSecs maxAgeDays < age ∧ 0 < maxAgeSecs maxAgeDays) :=
      fun h => absurd (hl (x, age) (by simp)) (not_le.mpr h.1)
    cases prev with
    | none => simp [windowRemovals, lastKept, hage]
    | some prev =>
      simp only [nil_append, windowRemovals, if_neg hage, ← stepOlder_iff, map_nil, lastKept,
        Option.some.injEq, exists_eq_left']
      split
      next h => simp [h]
      next h => simp [h]
  | cons y l ih =>
    obtain ⟨y, age'⟩ := y
    rw [map_cons, mem_cons, not_or] at hx
    have hage : ¬ (maxAgeSecs maxAgeDays < age' ∧ 0 < maxAgeSecs maxAgeDays) :=
      fun h => absurd (hl (y, age') (by simp)) (not_le.mpr h.1)
    have ih := fun prev => @ih prev hx.2 fun z hz => hl z (mem_cons_of_mem _ hz)
    cases prev with
    | none =>
      simp only [cons_append, windowRemovals, if_neg hage, map_cons, lastKept]
      exact ih _
    | some prev =>
      simp only [cons_append, windowRemovals, if_neg hage, ← stepOlder_iff, map_cons, lastKept]
      split
      next h => exact ih _
      next h =>
        rw [mem_cons, or_iff_right hx.1]
        exact ih _

end windows

variable {maxAgeDays : Option Nat} {clock : Clock} {d : Disk} {versions : List Archived}
  {a : Archived} {now : Mtime}

/-- The ages of the other versions of the file, youngest first. -/
def otherAges (now : Mtime) (versions : List Archived) (a : Archived) : List Int :=
  (((aged now versions a.path).filter (·.1 ≠ a)).insertionSort fun y z => y.2 ≤ z.2).map Prod.snd

/-- The group of a file is its other versions and, at the end, its oldest one. -/
theorem mem_groupRemovals_oldest_iff (h : VersionedFolder.Stored clock d versions)
    (ha : a ∈ versions) (holdest : ∀ b ∈ versions, b.path = a.path → b.age now ≤ a.age now)
    (hage : a.age now ≤ maxAgeSecs maxAgeDays) :
    a ∈ groupRemovals maxAgeDays (aged now versions a.path) ↔
      ∃ p, lastKept maxAgeDays none (otherAges now versions a) = some p ∧
        ¬ StepOlder maxAgeDays p (a.age now) := by
  let others := (aged now versions a.path).filter (·.1 ≠ a)
  let sorted := others.insertionSort fun y z => y.2 ≤ z.2
  have hsorted : sorted.Perm others := perm_insertionSort _ _
  have hmem : ∀ y ∈ aged now versions a.path, y.2 ≤ a.age now := by
    intro y hy
    obtain ⟨b, hb, rfl⟩ := mem_map.mp hy
    simp only [mem_filter, decide_eq_true_eq] at hb
    exact holdest b hb.1 hb.2
  have hperm : (aged now versions a.path).Perm (sorted ++ [(a, a.age now)]) := by
    have hself : (aged now versions a.path).filter (fun y => !decide (y.1 ≠ a)) =
        [(a, a.age now)] := by
      have hfilter : (versions.filter (·.path = a.path)).filter (· = a) = [a] := by
        rw [List.filter_eq, count_eq_one_of_mem (h.versions_nodup.filter _) (by simp [ha]),
          replicate_one]
      simp only [aged, filter_map, ne_eq, decide_not, Bool.not_not]
      exact congrArg (map fun b => (b, b.age now)) hfilter
    refine (filter_append_perm (fun y => decide (y.1 ≠ a)) _).symm.trans ?_
    rw [hself]
    exact hsorted.symm.append_right _
  have hmax : ∀ y ∈ sorted ++ [(a, a.age now)], y.2 ≤ maxAgeSecs maxAgeDays :=
    fun y hy => (hmem y (hperm.mem_iff.mpr hy)).trans hage
  have hnew : a ∉ sorted.map Prod.fst := by
    intro hin
    obtain ⟨y, hy, heq⟩ := mem_map.mp hin
    have := (mem_filter.mp (hsorted.mem_iff.mp hy)).2
    simp [heq] at this
  rw [groupRemovals_perm hperm (h.ages_nodup a.path), groupRemovals]
  split
  next hlen =>
    have hnil : sorted = [] := by
      rw [length_append, length_singleton] at hlen
      exact length_eq_zero_iff.mp (by omega)
    have hother : otherAges now versions a = [] := congrArg (map Prod.snd) hnil
    simp [hother, lastKept]
  next =>
    have hpair : (sorted ++ [(a, a.age now)]).Pairwise fun y z => y.2 ≤ z.2 := by
      refine pairwise_append.mpr ⟨pairwise_insertionSort _ _, by simp, fun y hy z hz => ?_⟩
      rw [mem_singleton.mp hz]
      exact hmem y (mem_of_mem_filter (hsorted.mem_iff.mp hy))
    rw [hpair.insertionSort_eq, mem_windowRemovals_concat hnew hmax]
    rfl

/-- Versions of a file at the given seconds. -/
def docVersions (secs : List Int) : List Archived := secs.map fun t => ⟨["doc"], t, [1]⟩

def docPath (secs : Int) : List String := stversionsDir ++ [name minuteClock ⟨["doc"], secs, [1]⟩]

def docArchive (secs : List Int) : Disk :=
  secs.foldl (fun d t => d.set (docPath t) (.file [1] (0, 0)))
    (FileStore.empty.set stversionsDir (.dir (0, 0) 0))

theorem node_docArchive {secs : List Int} {name : String} :
    (docArchive secs).node (stversionsDir ++ [name]) =
      if stversionsDir ++ [name] ∈ secs.map docPath then some (.file [1] (0, 0)) else none := by
  have hfold : ∀ (d : Disk) (path : List String),
      (secs.foldl (fun d t => d.set (docPath t) (.file [1] (0, 0))) d).node path =
        if path ∈ secs.map docPath then some (.file [1] (0, 0)) else d.node path := by
    induction secs with
    | nil => simp
    | cons t secs ih =>
      intro d path
      rw [foldl_cons, ih, FileStore.node_set, map_cons]
      by_cases hin : path ∈ secs.map docPath
      · simp [hin]
      · by_cases heq : path = docPath t <;> simp [hin, heq]
  rw [docArchive, hfold]
  simp [stversionsDir, FileStore.empty]

theorem stored_docArchive {secs : List Int} (hnodup : secs.Nodup)
    (hsecs : ∀ t ∈ secs, minuteClock.ReadsBack t) :
    VersionedFolder.Stored minuteClock (docArchive secs) (docVersions secs) where
  file a ha := by
    obtain ⟨t, ht, rfl⟩ := mem_map.mp ha
    have hin : stversionsDir ++ [name minuteClock ⟨["doc"], t, [1]⟩] ∈ secs.map docPath :=
      mem_map.mpr ⟨t, ht, rfl⟩
    exact ⟨(0, 0), by rw [node_docArchive, if_pos hin]⟩
  entry name hname := by
    rw [node_docArchive] at hname
    split at hname
    next hin =>
      obtain ⟨t, ht, heq⟩ := mem_map.mp hin
      exact ⟨_, mem_map.mpr ⟨t, ht, rfl⟩, by simpa [docPath] using heq⟩
    next => cases hname
  nodup := by
    rw [docVersions, map_map]
    exact hnodup.map fun t u htu => congrArg Prod.snd htu
  epoch a ha := by
    obtain ⟨t, ht, rfl⟩ := mem_map.mp ha
    exact hsecs t ht
  isolated a ha b hb _ := by
    obtain ⟨t, -, rfl⟩ := mem_map.mp ha
    obtain ⟨u, -, rfl⟩ := mem_map.mp hb
    rfl

end Syncthing
