import Syncthing.Sync.ArchiveFrame
import Syncthing.Lib.Transition

/-! Each call adds a version of one file, versions are removed file by file, and a file is listed
and restored from its own versions. The names in the archive are the base name of the file and a
time in seconds, so this holds as long as the names of the archived files do not run into each other
and no file is archived twice within a second. The calls are those whose file operations succeed. -/
namespace Syncthing

open FileStore Transition List Text Disk
open Function (comp_apply)
open Prod (ext fst map snd)

/-! ## The abstract archive -/

/-- A version that has been archived and not been removed since. -/
structure Archived where
  path : List String
  secs : Int
  content : Bytes
  deriving DecidableEq

namespace Archived

/-- The number of later versions of a path than a time. -/
def laterCount (versions : List Archived) (path : List String) (secs : Int) : Nat :=
  (versions.filter fun a => a.path = path ∧ secs < a.secs).length

/-- The newest versions of a path, and the versions of the others. -/
def newest (keep : Nat) (path : List String) (versions : List Archived) : List Archived :=
  versions.filter fun a => a.path ≠ path ∨ laterCount versions path a.secs < keep

def age (now : Mtime) (a : Archived) : Int := epochSecs now - epochSecs (a.secs, 0)

variable (maxAgeDays : Option Nat) (now : Mtime) (versions : List Archived)

def unexpired : List Archived := versions.filter fun a => a.age now ≤ maxAgeSecs maxAgeDays

/-- The versions of one path with their ages. -/
def aged (path : List String) : List (Archived × Int) :=
  (versions.filter (·.path = path)).map fun a => (a, a.age now)

/-- The windows are applied to the versions of each path alone. -/
def staggered : List Archived :=
  versions.filter fun a => a ∉ groupRemovals maxAgeDays (aged now versions a.path)

/-- What is left of the versions after an archive call. -/
def pruned (v : Versioner) (path : List String) (versions : List Archived) : List Archived :=
  match v with
  | .simple keep => newest keep path versions
  | .staggered => versions

/-- What is left of the versions after a clean call. -/
def cleaned (v : Versioner) (maxAgeDays : Option Nat) (now : Mtime) (versions : List Archived) :
    List Archived :=
  match v with
  | .simple _ => versions
  | .staggered => staggered maxAgeDays now (unexpired maxAgeDays now versions)

variable (clock : Clock)

/-- The name of the copy in the archive. -/
def name (a : Archived) : String := fileNameOrUnknown a.path ++ "~" ++ clock.formatStamp a.secs

end Archived
open Archived

/-! ## The archive on disk along the calls -/

/-- A folder, and the versions its archive stands for. -/
structure VersionedFolder where
  disk : Disk
  versions : List Archived

def Clock.at (clock : Clock) (now : Mtime) : Clock := { clock with now }

def noFaults : ArchiveFaults := ⟨none, none, none⟩

namespace VersionedFolder

variable (clock : Clock) (v : Versioner) (maxAgeDays : Option Nat) (s : VersionedFolder)

/-- A call of `archive` whose file operations do not fail. -/
def archive (path : List String) (now : Mtime) : VersionedFolder :=
  let called := v.archive (clock.at now) noFaults s.disk path
  match s.disk.read? path, called.1 with
  | some content, .ok _ => ⟨called.2, pruned v path (s.versions ++ [⟨path, now.1, content⟩])⟩
  | _, _ => ⟨called.2, s.versions⟩

def restore (path : List String) (time now : Mtime) : VersionedFolder :=
  match Versioner.restore (clock.at now) s.disk path time with
  | .ok disk => ⟨disk, s.versions⟩
  | .error _ => s

def clean (now : Mtime) : VersionedFolder :=
  ⟨v.clean (clock.at now) maxAgeDays s.disk, cleaned v maxAgeDays now s.versions⟩

end VersionedFolder

inductive VersionEvent where
  | archive (path : List String) (now : Mtime)
  | restore (path : List String) (time now : Mtime)
  | clean (now : Mtime)
  /-- Any other change of the folder, outside the archive. -/
  | edit

inductive VersionStep (clock : Clock) (v : Versioner) (maxAgeDays : Option Nat) :
    VersionedFolder → VersionEvent → VersionedFolder → Prop where
  | archive {s path now} :
    VersionStep clock v maxAgeDays s (.archive path now) (s.archive clock v path now)
  | restore {s path time now} :
    VersionStep clock v maxAgeDays s (.restore path time now) (s.restore clock path time now)
  | clean {s now} : VersionStep clock v maxAgeDays s (.clean now) (s.clean clock v maxAgeDays now)
  | edit {s disk} (h : SameArchive s.disk disk) :
    VersionStep clock v maxAgeDays s .edit ⟨disk, s.versions⟩

/-- What `chrono` does with a time from the epoch to the year 9999. -/
structure StampLaws (clock : Clock) : Prop where
  parse : ∀ {secs}, clock.ReadsBack secs → clock.parseStamp (clock.formatStamp secs) = some secs
  noTilde : ∀ secs, hasChar '~' (clock.formatStamp secs) = false

namespace VersionedFolder

variable (clock : Clock) (s : VersionedFolder)

/-- No name of a version of another file begins like the versions of the path. -/
def Isolated (path : List String) : Prop :=
  ∀ a ∈ s.versions, startsWith (a.name clock) (fileNameOrUnknown path ++ "~") = true →
    a.path = path

/-- The archive has no entries. -/
structure IsFresh (s : VersionedFolder) : Prop where
  versions : s.versions = []
  disk : ∀ name, s.disk.node (stversionsDir ++ [name]) = none

/-- The archive holds the content of each version; the versions of a file are listed, and what is
restored is the content of one of them. -/
structure Conforms (v : Versioner) (s : VersionedFolder) : Prop where
  isolated : ∀ a ∈ s.versions, s.Isolated clock a.path
  holds : ∀ a ∈ s.versions,
    s.disk.read? (versionPath a.path (clock.formatStamp a.secs)) = some a.content
  lists : ∀ path, s.Isolated clock path → (getVersions clock v s.disk path).Perm
    ((s.versions.filter (·.path = path)).map fun a => (a.secs, 0))
  restores : ∀ path time content, s.Isolated clock path →
    restoreByTimestamp clock s.disk path time = some content →
      ∃ a ∈ s.versions, a.path = path ∧ a.content = content ∧
        nanosBetween (a.secs, 0) time < 2000000000

/-- A file is archived after the epoch and before the year 10000, not twice within a second, and under a base name with which
neither its version is taken for one of another file nor the other way round; and no version is
restored into the archive. -/
def NameGuard : VersionEvent → Prop
  | .archive path now => (s.disk.read? path).isSome → clock.ReadsBack now.1 ∧ s.Isolated clock path ∧
      ∀ a ∈ s.versions, (a.path = path → a.secs ≠ now.1) ∧ (a.path ≠ path →
        startsWith (name clock ⟨path, now.1, []⟩) (fileNameOrUnknown a.path ++ "~") = false)
  | .restore path _ _ => path.dropLast ≠ stversionsDir
  | _ => True

end VersionedFolder

/-! ## The names in the archive -/

section names
variable {clock : Clock} {a : Archived}

theorem Archived.startsWith_name :
    startsWith (a.name clock) (fileNameOrUnknown a.path ++ "~") = true :=
  startsWith_append _ _

theorem Archived.splitChar_name (h : StampLaws clock) : splitChar '~' (a.name clock) =
    splitChar '~' (fileNameOrUnknown a.path) ++ [clock.formatStamp a.secs] := by
  have hname : a.name clock = fileNameOrUnknown a.path ++
      (String.singleton '~' ++ clock.formatStamp a.secs) := String.append_assoc
  rw [hname, splitChar_append_sep (h.noTilde _)]

theorem Archived.timestampTag_name (h : StampLaws clock) :
    timestampTag (a.name clock) = clock.formatStamp a.secs := by
  simp [timestampTag, splitChar_name h]

theorem Archived.versionBase_name (h : StampLaws clock) :
    versionBase (a.name clock) = fileNameOrUnknown a.path := by
  rw [versionBase, splitChar_name h, List.dropLast_concat]
  exact intercalate_splitChar '~' _

theorem Archived.hasChar_name : hasChar '~' (a.name clock) = true := by
  simp [hasChar, name]

theorem fileNameOrUnknown_entry (name : String) :
    fileNameOrUnknown (stversionsDir ++ [name]) = name := by
  simp [fileNameOrUnknown]

theorem versionTime_name (h : StampLaws clock) (ha : clock.ReadsBack a.secs) (d : Disk) :
    versionTime clock d (stversionsDir ++ [a.name clock]) = (a.secs, 0) := by
  rw [versionTime, fileNameOrUnknown_entry, timestampTag_name h, h.parse ha]

end names

/-! ## Lists -/

section lists
variable {α β : Type} {x : α}

/-- In a sorted list, what is left after `k` elements has at least `k` elements before it. -/
theorem mem_drop_iff {r : α → α → Prop} [DecidableRel r] (hr : ∀ x y, r x y → ¬ r y x)
    {l : List α} (hl : l.Pairwise r) (hx : x ∈ l) {k : Nat} :
    x ∈ l.drop k ↔ k ≤ (l.filter (r · x)).length := by
  have hirrefl : ∀ y, ¬ r y y := fun y hy => hr y y hy hy
  induction l generalizing k with
  | nil => cases hx
  | cons y l ih =>
    obtain ⟨hy, hl⟩ := List.pairwise_cons.mp hl
    cases k with
    | zero => simpa using hx
    | succ k =>
      rw [List.drop_succ_cons]
      by_cases hxy : r y x
      · have hmem : x ∈ l := by
          rcases List.mem_cons.mp hx with rfl | hx
          · exact absurd hxy (hirrefl _)
          · exact hx
        refine (ih hl hmem).trans ?_
        rw [List.filter_cons_of_pos (by simpa using hxy), List.length_cons]
        omega
      · have heq : x = y := by
          rcases List.mem_cons.mp hx with rfl | hx
          · rfl
          · exact absurd (hy x hx) hxy
        subst heq
        have hnone : l.filter (r · x) = [] := by
          rw [List.filter_eq_nil_iff]
          intro z hz
          simpa using hr _ _ (hy z hz)
        have hnot : x ∉ l := fun hmem => hirrefl _ (hy x hmem)
        rw [List.filter_cons_of_neg (by simpa using hxy), hnone]
        simp only [List.length_nil, Nat.le_zero, Nat.succ_ne_zero, iff_false]
        exact fun hmem => hnot (mem_of_mem_drop hmem)

variable {maxAgeDays : Option Nat} {l : List (α × Int)} (f : α → β)

theorem windowRemovals_map (prev : Option Int) (l : List (α × Int)) :
    windowRemovals maxAgeDays prev (l.map (Prod.map f id)) =
      (windowRemovals maxAgeDays prev l).map f := by
  induction l generalizing prev with
  | nil => rfl
  | cons x l ih =>
    obtain ⟨x, age⟩ := x
    simp only [List.map_cons, Prod.map, id, windowRemovals]
    split
    · rw [List.map_cons, ← ih]
    · cases prev with
      | none => exact ih _
      | some prev =>
        dsimp only
        split
        · exact ih _
        · rw [List.map_cons, ← ih]

theorem groupRemovals_map (l : List (α × Int)) :
    groupRemovals maxAgeDays (l.map (map f id)) = (groupRemovals maxAgeDays l).map f := by
  unfold groupRemovals
  rw [List.length_map]
  split
  · rfl
  · rw [← windowRemovals_map, List.map_insertionSort _ (fun a b => a.2 ≤ b.2)]
    intro a _ b _
    rfl

theorem mem_of_mem_windowRemovals {prev : Option Int}
    (h : x ∈ windowRemovals maxAgeDays prev l) : x ∈ l.map fst := by
  induction l generalizing prev with
  | nil => cases h
  | cons y l ih =>
    obtain ⟨y, age⟩ := y
    rw [List.map_cons, mem_cons]
    unfold windowRemovals at h
    split at h
    · exact (List.mem_cons.mp h).imp_right ih
    · split at h
      · exact .inr (ih h)
      · split at h
        · exact .inr (ih h)
        · exact (List.mem_cons.mp h).imp_right ih

theorem mem_of_mem_groupRemovals (h : x ∈ groupRemovals maxAgeDays l) : x ∈ l.map fst := by
  unfold groupRemovals at h
  split at h
  · cases h
  · have hmem := mem_of_mem_windowRemovals h
    obtain ⟨y, hy, rfl⟩ := List.mem_map.mp hmem
    exact List.mem_map_of_mem ((perm_insertionSort _ _).mem_iff.mp hy)

/-- If the ages differ, the order in which the versions are found does not matter. -/
theorem groupRemovals_perm {l l' : List (α × Int)} (h : l.Perm l') (hl : (l.map snd).Nodup) :
    groupRemovals maxAgeDays l = groupRemovals maxAgeDays l' := by
  have hstrict : ∀ {m : List (α × Int)}, l.Perm m →
      (m.insertionSort fun a b => a.2 ≤ b.2).Pairwise fun a b => a.2 < b.2 := by
    intro m hm
    have hsorted := List.pairwise_insertionSort (fun a b : α × Int => a.2 ≤ b.2) m
    have hnodup : ((m.insertionSort fun a b => a.2 ≤ b.2).map snd).Nodup :=
      ((hm.trans (perm_insertionSort _ _).symm).map _).nodup_iff.mp hl
    exact (hsorted.and (List.pairwise_map.mp hnodup)).imp fun h => lt_of_le_of_ne h.1 h.2
  have heq : l.insertionSort (fun a b => a.2 ≤ b.2) = l'.insertionSort fun a b => a.2 ≤ b.2 := by
    refine List.Perm.eq_of_pairwise ?_ (hstrict (.refl l)) (hstrict h)
      ((perm_insertionSort _ _).trans (h.trans (perm_insertionSort _ _).symm))
    intro a b _ _ hab hba
    exact absurd hab (lt_asymm hba)
  unfold groupRemovals
  rw [heq, h.length_eq]

end lists

/-! ## The entries of the archive -/

namespace VersionedFolder

/-- The entries of the archive are the versions, under different names. -/
structure Stored (clock : Clock) (d : Disk) (versions : List Archived) : Prop where
  file : ∀ a ∈ versions, ∃ m, d.node (stversionsDir ++ [a.name clock]) = some (.file a.content m)
  entry : ∀ name, (d.node (stversionsDir ++ [name])).isSome → ∃ a ∈ versions, a.name clock = name
  nodup : (versions.map fun a => (a.path, a.secs)).Nodup
  epoch : ∀ a ∈ versions, clock.ReadsBack a.secs
  isolated : ∀ a ∈ versions, Isolated clock ⟨d, versions⟩ a.path

section entries
variable {clock : Clock} {v : Versioner} {maxAgeDays : Option Nat} {d d' : Disk}
  {versions : List Archived} {path : List String} {a b : Archived} {now : Mtime} {secs : Int}
  {p : Archived → Bool} {entry : List String} {s : VersionedFolder} {content : Bytes}

theorem Isolated.filter (h : Isolated clock ⟨d, versions⟩ path) :
    Isolated clock ⟨d', versions.filter p⟩ path :=
  fun a ha => h a (mem_of_mem_filter ha)

theorem IsFresh.stored (h : s.IsFresh) : Stored clock s.disk s.versions := by
  rw [h.versions]
  exact ⟨by simp, by simp [h.disk], by simp, by simp, by simp⟩

section
variable (h : Stored clock d versions)
include h

theorem Stored.congr (hd : SameArchive d d') :
    Stored clock d' versions where
  file a ha := by
    rw [hd]
    exact h.file a ha
  entry name hname := h.entry name (by rwa [hd] at hname)
  nodup := h.nodup
  epoch := h.epoch
  isolated a ha := h.isolated a ha

theorem Stored.mem_children :
    entry ∈ d.children stversionsDir ↔ ∃ a ∈ versions, stversionsDir ++ [a.name clock] = entry := by
  rw [FileStore.mem_children]
  constructor
  · rintro ⟨hne, hdir, hsome⟩
    rw [← List.dropLast_append_getLast hne, hdir] at hsome ⊢
    obtain ⟨a, ha, hname⟩ := h.entry _ hsome
    exact ⟨a, ha, by rw [hname]⟩
  · rintro ⟨a, ha, rfl⟩
    obtain ⟨m, hm⟩ := h.file a ha
    exact ⟨by simp, by simp, by simp [hm]⟩

theorem Stored.versions_nodup : versions.Nodup := h.nodup.of_map

variable (hlaws : StampLaws clock)
include hlaws

/-- Two versions of one name are one version. -/
theorem Stored.eq_of_name (ha : a ∈ versions) (hb : b ∈ versions)
    (hname : a.name clock = b.name clock) : a = b := by
  have hpath : a.path = b.path := h.isolated b hb a ha (hname ▸ startsWith_name)
  have hsecs : a.secs = b.secs := by
    have hstamp : clock.formatStamp a.secs = clock.formatStamp b.secs := by
      rw [← timestampTag_name hlaws, hname, timestampTag_name hlaws]
    have hparse := congrArg clock.parseStamp hstamp
    rw [hlaws.parse (h.epoch a ha), hlaws.parse (h.epoch b hb)] at hparse
    exact Option.some.inj hparse
  exact List.inj_on_of_nodup_map h.nodup ha hb (ext hpath hsecs)

theorem Stored.children_perm :
    (d.children stversionsDir).Perm (versions.map fun a => stversionsDir ++ [a.name clock]) := by
  refine (List.perm_ext_iff_of_nodup nodup_children ?_).mpr fun entry => ?_
  · refine List.Nodup.map_on (fun a ha b hb hab => ?_) h.versions_nodup
    exact h.eq_of_name hlaws ha hb (by simpa using hab)
  · rw [h.mem_children, mem_map]

variable (hpath : Isolated clock ⟨d, versions⟩ path)
include hpath

/-- The entries found for a file are its versions. -/
theorem Stored.versionEntries_perm : (versionEntries d path).Perm
      ((versions.filter (·.path = path)).map fun a => stversionsDir ++ [a.name clock]) := by
  refine ((h.children_perm hlaws).filter _).trans (.of_eq ?_)
  rw [filter_map]
  refine congrArg _ (filter_congr fun a ha => ?_)
  rw [comp_apply, fileNameOrUnknown_entry, Bool.eq_iff_iff, decide_eq_true_eq]
  refine ⟨hpath a ha, ?_⟩
  rintro rfl
  exact startsWith_name

theorem Stored.listVersionsFor_perm : (listVersionsFor clock d path).Perm
      ((versions.filter (·.path = path)).map fun a => (a.secs, 0)) := by
  refine (perm_insertionSort _ _).trans
    (((h.versionEntries_perm hlaws hpath).map _).trans (.of_eq ?_))
  rw [map_map]
  refine List.map_congr_left fun a ha => ?_
  exact versionTime_name hlaws (h.epoch a (mem_of_mem_filter ha)) d

end

/-! ## Removing versions -/

section
variable (h : Stored clock d versions)
include h

theorem Stored.filter (hfile : ∀ a ∈ versions, p a = true →
      d'.node (stversionsDir ++ [a.name clock]) = d.node (stversionsDir ++ [a.name clock]))
    (hentry : ∀ name, (d'.node (stversionsDir ++ [name])).isSome →
      ∃ a ∈ versions, p a = true ∧ a.name clock = name) :
    Stored clock d' (versions.filter p) where
  file a ha := by
    obtain ⟨ha, hp⟩ := List.mem_filter.mp ha
    rw [hfile a ha hp]
    exact h.file a ha
  entry name hname := by
    obtain ⟨a, ha, hp, hname⟩ := hentry name hname
    exact ⟨a, List.mem_filter.mpr ⟨ha, hp⟩, hname⟩
  nodup := h.nodup.sublist (List.filter_sublist.map _)
  epoch a ha := h.epoch a (mem_of_mem_filter ha)
  isolated a ha := (h.isolated a (mem_of_mem_filter ha)).filter

theorem Stored.remove (name : String) :
    Stored clock (d.remove (stversionsDir ++ [name])) (versions.filter (·.name clock ≠ name)) := by
  refine h.filter (fun a _ hne => ?_) fun other hother => ?_
  · rw [node_remove, if_neg]
    simpa using hne
  · rw [node_remove] at hother
    split at hother
    · cases hother
    next hne =>
      obtain ⟨a, ha, rfl⟩ := h.entry other hother
      exact ⟨a, ha, by simpa using hne, rfl⟩

theorem Stored.filter_absent {name : String} (hnode : d.node (stversionsDir ++ [name]) = none) :
    versions.filter (·.name clock ≠ name) = versions := by
  refine List.filter_eq_self.mpr fun a ha => ?_
  rw [decide_eq_true_eq]
  rintro rfl
  obtain ⟨m, hm⟩ := h.file a ha
  cases hnode.symm.trans hm

/-- What is at the name of an entry: nothing, or the file of a version. -/
theorem Stored.node_cases (name : String) : d.nodeAt (stversionsDir ++ [name]) = none ∨
      ∃ content m, d.nodeAt (stversionsDir ++ [name]) = some (.file content m) := by
  rw [nodeAt_eq (by simp)]
  cases hn : d.node (stversionsDir ++ [name]) with
  | none => exact .inl rfl
  | some n =>
    obtain ⟨a, ha, rfl⟩ := h.entry name (by simp [hn])
    obtain ⟨m, hm⟩ := h.file a ha
    exact .inr ⟨a.content, m, hn.symm.trans hm⟩

theorem Stored.removeEach (names : List String) :
    Stored clock (removeEach (names.map fun name => stversionsDir ++ [name]) d)
      (versions.filter (·.name clock ∉ names)) := by
  induction names generalizing d versions with
  | nil => simpa [Syncthing.removeEach] using h
  | cons name names ih =>
    have hfilter : versions.filter (·.name clock ∉ name :: names) =
        (versions.filter (·.name clock ≠ name)).filter (·.name clock ∉ names) := by
      rw [filter_filter]
      refine filter_congr fun a _ => ?_
      rw [Bool.eq_iff_iff]
      simp only [mem_cons, not_or, decide_eq_true_eq, Bool.and_eq_true, and_comm]
    rw [hfilter]
    rcases h.node_cases name with hn | ⟨content, m, hn⟩
    · have hstep := ih h
      rw [h.filter_absent (by rwa [nodeAt_eq (by simp)] at hn)]
      simpa [Syncthing.removeEach, removeFile, hn] using hstep
    · have hstep := ih (h.remove name)
      simpa [Syncthing.removeEach, removeFile, hn] using hstep

end

section
variable (hlaws : StampLaws clock) (h : Stored clock d versions)
  (hpath : Isolated clock ⟨d, versions⟩ path)
include hlaws h hpath

theorem Stored.name_ne_iff (ha : a ∈ versions) (hsecs : clock.ReadsBack secs) :
    a.name clock ≠ fileNameOrUnknown path ++ "~" ++ clock.formatStamp secs ↔
      a.path ≠ path ∨ a.secs ≠ secs := by
  rw [← not_and_or, not_iff_not]
  constructor
  · intro hname
    have hapath : a.path = path := hpath a ha (hname ▸ startsWith_append _ _)
    subst hapath
    have hstamp : clock.formatStamp a.secs = clock.formatStamp secs := by
      have htag : timestampTag (a.name clock) =
        timestampTag (name clock ⟨a.path, secs, []⟩) := congrArg timestampTag hname
      rwa [timestampTag_name hlaws, timestampTag_name hlaws] at htag
    have hparse := congrArg clock.parseStamp hstamp
    rw [hlaws.parse (h.epoch a ha), hlaws.parse hsecs] at hparse
    exact ⟨rfl, Option.some.inj hparse⟩
  · rintro ⟨rfl, rfl⟩
    rfl

/-- Pruning by times removes the versions of the path with these times. -/
theorem Stored.pruneVersions (times : List Mtime)
    (htimes : ∀ t ∈ times, clock.ReadsBack t.1 ∧ t.2 = 0) :
    (pruneVersions (clock.at now) noFaults path times d).1 = .ok () ∧
      Stored clock (pruneVersions (clock.at now) noFaults path times d).2
        (versions.filter fun a => a.path ≠ path ∨ (a.secs, 0) ∉ times) := by
  induction times generalizing d versions with
  | nil => simpa [Syncthing.pruneVersions] using h
  | cons t times ih =>
    obtain ⟨hsecs, hnanos⟩ := htimes t List.mem_cons_self
    have htimes := fun u hu => htimes u (List.mem_cons_of_mem _ hu)
    have hfilter : (versions.filter fun a => a.path ≠ path ∨ (a.secs, 0) ∉ t :: times) =
        (versions.filter
          (·.name clock ≠ fileNameOrUnknown path ++ "~" ++ clock.formatStamp t.1)).filter
            fun a => a.path ≠ path ∨ (a.secs, 0) ∉ times := by
      rw [filter_filter]
      refine filter_congr fun a ha => ?_
      obtain ⟨secs, nanos⟩ := t
      subst hnanos
      rw [Bool.eq_iff_iff]
      simp only [h.name_ne_iff hlaws hpath ha hsecs, decide_eq_true_eq, Bool.and_eq_true,
        mem_cons, Prod.mk.injEq, and_true, not_or]
      tauto
    rw [hfilter]
    unfold Syncthing.pruneVersions
    have hentry : versionPath path ((clock.at now).formatStamp t.1) =
      stversionsDir ++ [fileNameOrUnknown path ++ "~" ++ clock.formatStamp t.1] := rfl
    rw [hentry]
    rcases h.node_cases (fileNameOrUnknown path ++ "~" ++ clock.formatStamp t.1) with
      hn | ⟨content, m, hn⟩
    · have hstep := ih h hpath htimes
      rw [h.filter_absent (by rwa [nodeAt_eq (by simp)] at hn)]
      simpa [pathExists, hn] using hstep
    · have hstep := ih (h.remove (fileNameOrUnknown path ++ "~" ++ clock.formatStamp t.1))
        hpath.filter htimes
      simpa [pathExists, removeFile, hn, noFaults, orFault] using hstep

/-- What the simple versioner keeps are the newest versions. -/
theorem Stored.newest_eq (keep : Nat) :
    newest keep path versions = versions.filter fun a =>
      a.path ≠ path ∨ (a.secs, 0) ∉ (listVersionsFor clock d path).drop keep := by
  have hperm := h.listVersionsFor_perm hlaws hpath
  have hnodup : (listVersionsFor clock d path).Nodup := by
    refine hperm.nodup_iff.mpr (List.Nodup.map_on (fun a ha b hb hab => ?_)
      (h.versions_nodup.filter _))
    simp only [mem_filter, decide_eq_true_eq] at ha hb
    exact List.inj_on_of_nodup_map h.nodup ha.1 hb.1 (ext (ha.2.trans hb.2.symm)
      (Prod.mk.inj hab).1)
  have hsorted : (listVersionsFor clock d path).Pairwise
      fun x y => laterVersion x y ∧ ¬ laterVersion y x :=
    ((List.pairwise_insertionSort laterVersion _).and hnodup).imp
      fun h => ⟨h.1, fun hyx => h.2 (antisymm h.1 hyx)⟩
  refine filter_congr fun a ha => ?_
  rw [decide_eq_decide]
  refine or_congr_right' fun hsame => ?_
  have hsame : a.path = path := not_not.mp hsame
  have hmem : (a.secs, 0) ∈ listVersionsFor clock d path :=
    hperm.mem_iff.mpr (List.mem_map.mpr ⟨a, List.mem_filter.mpr ⟨ha, by simpa using hsame⟩, rfl⟩)
  rw [mem_drop_iff (fun x y h h' => h.2 h'.1) hsorted hmem, not_le]
  have hcount : ((listVersionsFor clock d path).filter
      fun x => laterVersion x (a.secs, 0) ∧ ¬ laterVersion (a.secs, 0) x).length =
        laterCount versions path a.secs := by
    rw [(hperm.filter _).length_eq, filter_map, List.length_map, filter_filter, laterCount]
    congr 1
    refine filter_congr fun b _ => ?_
    rw [Bool.eq_iff_iff]
    simp only [comp_apply, laterVersion, Bool.and_eq_true, decide_eq_true_eq]
    constructor
    · rintro ⟨hlater, hb⟩
      have hlater := of_decide_eq_true hlater
      exact ⟨hb, by omega⟩
    · rintro ⟨hb, hlater⟩
      exact ⟨decide_eq_true (by omega), hb⟩
  rw [hcount]

/-! ## Archiving -/

/-- A version is added under a name that is not taken. -/
theorem Stored.add {m : Mtime} (hsecs : clock.ReadsBack secs)
    (hnew : ∀ a ∈ versions, (a.path = path → a.secs ≠ secs) ∧ (a.path ≠ path →
      startsWith (name clock ⟨path, secs, []⟩) (fileNameOrUnknown a.path ++ "~") = false)) :
    Stored clock
      (d.set (stversionsDir ++ [name clock ⟨path, secs, content⟩]) (.file content m))
      (versions ++ [⟨path, secs, content⟩]) where
  file a ha := by
    rcases List.mem_append.mp ha with ha | ha
    · have hne : a.name clock ≠ name clock ⟨path, secs, content⟩ :=
        (h.name_ne_iff hlaws hpath ha hsecs).mpr
          ((em (a.path = path)).elim (fun heq => .inr ((hnew a ha).1 heq)) .inl)
      rw [node_set, if_neg (by simpa using hne)]
      exact h.file a ha
    · rw [List.mem_singleton.mp ha, node_set, if_pos rfl]
      exact ⟨m, rfl⟩
  entry name hname := by
    rw [node_set] at hname
    split at hname
    next heq => exact ⟨_, mem_append_right _ mem_cons_self, by simpa using heq.symm⟩
    · obtain ⟨a, ha, hname⟩ := h.entry name hname
      exact ⟨a, List.mem_append_left _ ha, hname⟩
  nodup := by
    rw [List.map_append, List.nodup_append]
    refine ⟨h.nodup, by simp, ?_⟩
    intro x hx y hy hxy
    obtain ⟨a, ha, rfl⟩ := List.mem_map.mp hx
    rw [List.map_singleton, List.mem_singleton] at hy
    obtain ⟨hpath, hsecs⟩ := Prod.mk.inj (hxy.trans hy)
    exact (hnew a ha).1 hpath hsecs
  epoch a ha := by
    rcases List.mem_append.mp ha with ha | ha
    · exact h.epoch a ha
    · rw [List.mem_singleton.mp ha]
      exact hsecs
  isolated a ha := by
    intro b hb hstart
    rcases List.mem_append.mp ha with ha | ha
    · rcases List.mem_append.mp hb with hb | hb
      · exact h.isolated a ha b hb hstart
      · rw [List.mem_singleton.mp hb] at hstart ⊢
        by_contra hne
        exact Bool.false_ne_true (((hnew a ha).2 (Ne.symm hne)).symm.trans hstart)
    · rw [List.mem_singleton.mp ha] at hstart ⊢
      rcases List.mem_append.mp hb with hb | hb
      · exact hpath b hb hstart
      · rw [mem_singleton.mp hb]

/-- An archive call after a successful copy. -/
theorem Stored.pruned (keep : Nat) :
    (Syncthing.pruneVersions (clock.at now) noFaults path
      ((listVersionsFor clock d path).drop keep) d).1 = .ok () ∧
    Stored clock (Syncthing.pruneVersions (clock.at now) noFaults path
      ((listVersionsFor clock d path).drop keep) d).2 (newest keep path versions) := by
  rw [h.newest_eq hlaws hpath]
  refine h.pruneVersions hlaws hpath _ fun t ht => ?_
  have hmem := (h.listVersionsFor_perm hlaws hpath).mem_iff.mp (List.mem_of_mem_drop ht)
  obtain ⟨a, ha, rfl⟩ := List.mem_map.mp hmem
  exact ⟨h.epoch a (mem_of_mem_filter ha), rfl⟩

end

theorem Isolated.add (h : Isolated clock ⟨d, versions⟩ path) :
    Isolated clock ⟨d', versions ++ [⟨path, secs, content⟩]⟩ path := by
  intro a ha hstart
  rcases List.mem_append.mp ha with ha | ha
  · exact h a ha hstart
  · rw [List.mem_singleton.mp ha]

theorem listVersionsFor_at : listVersionsFor (clock.at now) d path = listVersionsFor clock d path :=
  rfl

theorem read?_createDirAll (h : d.createDirAll stversionsDir now = .ok d') :
    d'.read? path = d.read? path := by
  by_cases hsome : (d.nodeAt path).isSome
  · exact read?_congr (nodeAt_createDirAll h hsome)
  · have hnone : d.nodeAt path = none := by simpa using hsome
    have hne : path ≠ [] := by
      rintro rfl
      simp [nodeAt] at hnone
    rw [nodeAt_eq hne] at hnone
    unfold read?
    rw [nodeAt_eq hne, nodeAt_eq hne, node_createDirAll h, hnone]
    by_cases hle : path <+: stversionsDir <;> simp [hle]

section
variable (hlaws : StampLaws clock)
include hlaws

/-- The copy of an archive call adds the version, or the call fails and leaves the archive. -/
theorem Stored.archiveFile (h : Stored clock d versions)
    (hread : d.read? path = some content) (hsecs : clock.ReadsBack now.1)
    (hpath : Isolated clock ⟨d, versions⟩ path)
    (hnew : ∀ a ∈ versions, (a.path = path → a.secs ≠ now.1) ∧ (a.path ≠ path →
      startsWith (name clock ⟨path, now.1, []⟩) (fileNameOrUnknown a.path ++ "~") = false)) :
    (∃ e, (archiveFile (clock.at now) noFaults d path).1 = .error e ∧
      Stored clock (archiveFile (clock.at now) noFaults d path).2 versions) ∨
    (archiveFile (clock.at now) noFaults d path).1 = .ok () ∧
      Stored clock (archiveFile (clock.at now) noFaults d path).2
        (versions ++ [⟨path, now.1, content⟩]) := by
  have hentry : versionPath path ((clock.at now).formatStamp (clock.at now).now.1) =
    stversionsDir ++ [name clock ⟨path, now.1, content⟩] := rfl
  simp only [Syncthing.archiveFile, noFaults, orFault, hentry]
  cases hdir : d.createDirAll stversionsDir (clock.at now).now with
  | error e => exact .inl ⟨e, rfl, h⟩
  | ok d1 =>
    have h1 := h.congr (sameArchive_createDirAll hdir)
    have hne : path ≠ stversionsDir ++ [name clock ⟨path, now.1, content⟩] :=
      (versionPath_ne path _).symm
    have hfree : d1.node (stversionsDir ++ [name clock ⟨path, now.1, content⟩]) = none := by
      by_contra hsome
      obtain ⟨a, ha, hname⟩ := h1.entry _ (Option.isSome_iff_ne_none.mpr hsome)
      exact (h.name_ne_iff hlaws hpath ha hsecs).mpr
        ((em (a.path = path)).elim (fun heq => .inr ((hnew a ha).1 heq)) .inl) hname
    simp only [copy, read?_createDirAll hdir, hread, if_neg hne]
    cases hw : d1.write (stversionsDir ++ [name clock ⟨path, now.1, content⟩]) content
      (clock.at now).now with
    | error e => exact .inl ⟨e, rfl, h1⟩
    | ok d2 =>
      refine .inr ⟨rfl, ?_⟩
      unfold write at hw
      rw [nodeAt_eq (by simp), hfree] at hw
      split at hw
      · cases hw
      · cases hw
        exact h1.add hlaws hpath hsecs hnew

/-- An archive call keeps to the versions of its file. -/
theorem stored_archive
    (hok : s.NameGuard clock (.archive path now)) (h : Stored clock s.disk s.versions) :
    Stored clock (s.archive clock v path now).disk (s.archive clock v path now).versions := by
  unfold VersionedFolder.archive
  cases hread : s.disk.read? path with
  | none =>
    dsimp only
    unfold Versioner.archive
    split
    · exact h
    · have hcopy : SameArchive s.disk (archiveFile (clock.at now) noFaults s.disk path).2 ∧
          ∃ e, (archiveFile (clock.at now) noFaults s.disk path).1 = .error e := by
        simp only [archiveFile, noFaults, orFault]
        cases hdir : s.disk.createDirAll stversionsDir (clock.at now).now with
        | error e => exact ⟨fun _ => rfl, e, rfl⟩
        | ok d1 =>
          simp only [copy, read?_createDirAll hdir, hread]
          exact ⟨sameArchive_createDirAll hdir, _, rfl⟩
      obtain ⟨hsame, e, he⟩ := hcopy
      split
      next hcall =>
        rw [hcall] at he
        cases he
      · exact h.congr hsame
  | some content =>
    obtain ⟨hsecs, hpath, hnew⟩ := hok (by simp [hread])
    have hexists : s.disk.pathExists path = true := pathExists_of_read? hread
    have hcopy := h.archiveFile hlaws hread hsecs hpath hnew
    simp only [Versioner.archive, hexists, Bool.not_true, Bool.false_eq_true, if_false]
    rcases hcall : archiveFile (clock.at now) noFaults s.disk path with ⟨r, d1⟩
    rw [hcall] at hcopy
    rcases hcopy with ⟨e, rfl, hcopy⟩ | ⟨rfl, hcopy⟩
    · cases v <;> exact hcopy
    · cases v with
      | staggered => exact hcopy
      | simple keep =>
        obtain ⟨hprune, hstored⟩ := hcopy.pruned hlaws hpath.add keep
        simp only [listVersionsFor_at]
        rw [hprune]
        exact hstored

/-! ## Cleaning up -/

theorem versionAge_name (ha : clock.ReadsBack a.secs) :
    versionAge (clock.at now) d (stversionsDir ++ [a.name clock]) = a.age now := by
  have htime : versionTime (clock.at now) d (stversionsDir ++ [a.name clock]) = (a.secs, 0) :=
    versionTime_name hlaws ha d
  rw [versionAge, htime]
  rfl

end

section
variable (h : Stored clock d versions)
include h

/-- The entries of the archive that meet a condition, by their names. -/
theorem Stored.children_filter (p : List String → Bool) :
    ∃ names : List String, (d.children stversionsDir).filter p =
      names.map (fun name => stversionsDir ++ [name]) ∧
      ∀ a ∈ versions, a.name clock ∈ names ↔ p (stversionsDir ++ [a.name clock]) = true := by
  refine ⟨((d.children stversionsDir).filter p).map fileNameOrUnknown, ?_, fun a ha => ?_⟩
  · rw [map_map]
    refine (List.map_id _).symm.trans (List.map_congr_left fun entry hentry => ?_)
    obtain ⟨a, -, rfl⟩ := h.mem_children.mp (mem_of_mem_filter hentry)
    rw [comp_apply, fileNameOrUnknown_entry]
    rfl
  · rw [mem_map]
    constructor
    · rintro ⟨entry, hentry, hname⟩
      obtain ⟨hchild, hp⟩ := List.mem_filter.mp hentry
      obtain ⟨b, -, rfl⟩ := h.mem_children.mp hchild
      rw [fileNameOrUnknown_entry] at hname
      rwa [← hname]
    · intro hp
      exact ⟨_, List.mem_filter.mpr ⟨h.mem_children.mpr ⟨a, ha, rfl⟩, hp⟩,
        fileNameOrUnknown_entry _⟩

/-- Versions whose names have one base belong to one file. -/
theorem Stored.path_eq_of_base (ha : a ∈ versions)
    (hb : b ∈ versions) (hbase : fileNameOrUnknown a.path = fileNameOrUnknown b.path) :
    a.path = b.path :=
  h.isolated b hb a ha (hbase ▸ startsWith_name)

theorem Stored.ages_nodup (path : List String) :
    ((aged now versions path).map snd).Nodup := by
  rw [aged, map_map]
  refine List.Nodup.map_on (fun a ha b hb hab => ?_) (h.versions_nodup.filter _)
  simp only [mem_filter, decide_eq_true_eq] at ha hb
  have hsecs : a.secs = b.secs := by
    have hapos := (h.epoch a ha.1).1
    have hbpos := (h.epoch b hb.1).1
    simp only [comp_apply, age, epochSecs] at hab
    omega
  exact inj_on_of_nodup_map h.nodup ha.1 hb.1 (ext (ha.2.trans hb.2.symm) hsecs)

variable (hlaws : StampLaws clock)
include hlaws

theorem Stored.cleanExpired :
    Stored clock (cleanExpired (clock.at now) maxAgeDays d)
      (unexpired maxAgeDays now versions) := by
  obtain ⟨names, hnames, hmem⟩ := h.children_filter fun entry =>
    decide (maxAgeSecs maxAgeDays < versionAge (clock.at now) d entry)
  have heq : unexpired maxAgeDays now versions = versions.filter (·.name clock ∉ names) := by
    refine filter_congr fun a ha => ?_
    rw [decide_eq_decide, hmem a ha, decide_eq_true_eq, versionAge_name hlaws (h.epoch a ha),
      not_lt]
  rw [heq, Syncthing.cleanExpired, hnames]
  exact h.removeEach names

/-- The stamped entries are the versions with their ages. -/
theorem Stored.stampedEntries_perm :
    (stampedEntries (clock.at now) d).Perm
      (versions.map fun a => (a.name clock, a.age now)) := by
  refine ((h.children_perm hlaws).filterMap _).trans (.of_eq ?_)
  rw [List.filterMap_map, ← List.filterMap_eq_map]
  refine List.filterMap_congr fun a ha => ?_
  have hparse : (clock.at now).parseStamp (timestampTag (a.name clock)) = some a.secs := by
    rw [timestampTag_name hlaws]
    exact hlaws.parse (h.epoch a ha)
  simp only [comp_apply, fileNameOrUnknown_entry, hasChar_name, if_true, hparse]
  rfl

/-- The group of entries of a base is made of the versions of one file. -/
theorem Stored.group_perm (ha : a ∈ versions) :
    ((stampedEntries (clock.at now) d).filter fun entry =>
      versionBase entry.1 = fileNameOrUnknown a.path).Perm
      ((aged now versions a.path).map (map (name clock) id)) := by
  refine ((h.stampedEntries_perm hlaws).filter _).trans (.of_eq ?_)
  rw [filter_map, aged, map_map]
  refine congrArg _ (filter_congr fun b hb => ?_)
  rw [comp_apply, decide_eq_decide, versionBase_name hlaws]
  exact ⟨h.path_eq_of_base hb ha, congrArg _⟩

/-- What the windows remove of the group of a file are versions of that file. -/
theorem Stored.mem_groupRemovals_iff (ha : a ∈ versions) :
    a.name clock ∈ groupRemovals maxAgeDays ((stampedEntries (clock.at now) d).filter fun entry =>
      versionBase entry.1 = fileNameOrUnknown a.path) ↔
      a ∈ groupRemovals maxAgeDays (aged now versions a.path) := by
  have hperm : ((stampedEntries (clock.at now) d).filter fun entry =>
      versionBase entry.1 = fileNameOrUnknown a.path).Perm _ := h.group_perm hlaws ha
  have hnodup : (((stampedEntries (clock.at now) d).filter fun entry =>
      versionBase entry.1 = fileNameOrUnknown a.path).map snd).Nodup := by
    refine (hperm.map _).nodup_iff.mpr ?_
    rw [map_map]
    exact h.ages_nodup a.path
  rw [groupRemovals_perm hperm hnodup, groupRemovals_map, mem_map]
  constructor
  · rintro ⟨b, hb, hname⟩
    obtain ⟨x, hx, rfl⟩ := mem_map.mp (mem_of_mem_groupRemovals hb)
    obtain ⟨c, hc, rfl⟩ := mem_map.mp hx
    exact h.eq_of_name hlaws (mem_of_mem_filter hc) ha hname ▸ hb
  · exact fun hmem => ⟨a, hmem, rfl⟩

theorem Stored.pruneAll :
    Stored clock (pruneAll (clock.at now) maxAgeDays d)
      (staggered maxAgeDays now versions) := by
  obtain ⟨names, hnames⟩ : ∃ names, names =
      ((((stampedEntries (clock.at now) d).map fun entry => versionBase entry.1).dedup.map
        fun base => (stampedEntries (clock.at now) d).filter
          fun entry => versionBase entry.1 = base).flatMap (groupRemovals maxAgeDays)) := ⟨_, rfl⟩
  have hmem : ∀ a ∈ versions, a.name clock ∈ names ↔
      a ∈ groupRemovals maxAgeDays (aged now versions a.path) := by
    intro a ha
    rw [← h.mem_groupRemovals_iff hlaws ha, hnames, List.flatMap_map, List.mem_flatMap]
    constructor
    · rintro ⟨base, -, hbase⟩
      obtain ⟨x, hx, hname⟩ := List.mem_map.mp (mem_of_mem_groupRemovals hbase)
      have heq : versionBase (a.name clock) = base := by
        rw [← hname]
        simpa using (mem_filter.mp hx).2
      rw [versionBase_name hlaws] at heq
      rwa [heq]
    · intro hremoved
      refine ⟨_, List.mem_dedup.mpr (List.mem_map.mpr ⟨(a.name clock, a.age now), ?_,
        versionBase_name hlaws⟩), hremoved⟩
      exact (h.stampedEntries_perm hlaws).mem_iff.mpr (List.mem_map.mpr ⟨a, ha, rfl⟩)
  have hexists : (names.map fun name => stversionsDir ++ [name]).filter d.pathExists =
      (names.filter fun name => d.pathExists (stversionsDir ++ [name])).map
        fun name => stversionsDir ++ [name] := filter_map
  have heq : staggered maxAgeDays now versions = versions.filter
      (·.name clock ∉ names.filter fun name => d.pathExists (stversionsDir ++ [name])) := by
    refine filter_congr fun a ha => ?_
    rw [decide_eq_decide, mem_filter, hmem a ha]
    obtain ⟨m, hm⟩ := h.file a ha
    simp [pathExists, nodeAt, hm]
  simp only [Syncthing.pruneAll]
  rw [← hnames, hexists, heq]
  exact h.removeEach _

end

section
variable (hlaws : StampLaws clock)
include hlaws

theorem stored_clean (h : Stored clock s.disk s.versions) :
    Stored clock (s.clean clock v maxAgeDays now).disk
      (s.clean clock v maxAgeDays now).versions := by
  cases v with
  | simple keep => exact h
  | staggered => exact (h.cleanExpired hlaws).pruneAll hlaws

end

theorem sameArchive_copy (h : d.copy entry path now = .ok d')
    (hpath : path.dropLast ≠ stversionsDir) : SameArchive d d' := by
  intro name
  unfold copy at h
  split at h
  · cases h
  · have hnode := nodeAt_write h (q := stversionsDir ++ [name]) (by
      rintro rfl
      exact hpath (by simp))
    rwa [nodeAt_eq (by simp), nodeAt_eq (by simp)] at hnode

theorem stored_restore {time : Mtime}
    (hpath : path.dropLast ≠ stversionsDir) (h : Stored clock s.disk s.versions) :
    Stored clock (s.restore clock path time now).disk (s.restore clock path time now).versions := by
  unfold VersionedFolder.restore
  split
  next disk hrestore =>
    unfold Versioner.restore at hrestore
    split at hrestore
    · exact h.congr (sameArchive_copy hrestore hpath)
    · cases hrestore
  · exact h

theorem stored_step {s s' : VersionedFolder} {e : VersionEvent} (hlaws : StampLaws clock)
    (hok : s.NameGuard clock e) (hstep : VersionStep clock v maxAgeDays s e s')
    (h : Stored clock s.disk s.versions) : Stored clock s'.disk s'.versions := by
  cases hstep with
  | archive => exact stored_archive hlaws hok h
  | restore => exact stored_restore hok h
  | clean => exact stored_clean hlaws h
  | edit hsame => exact h.congr hsame

/-! ## What is listed and restored -/

theorem Stored.read?_version (h : Stored clock d versions) (ha : a ∈ versions) :
    d.read? (stversionsDir ++ [a.name clock]) = some a.content := by
  obtain ⟨m, hm⟩ := h.file a ha
  simp [read?, nodeAt, hm]

theorem Stored.conforms (hlaws : StampLaws clock)
    (h : Stored clock s.disk s.versions) : s.Conforms clock v where
  isolated := h.isolated
  holds a ha := h.read?_version ha
  lists path hpath := by
    have hperm := h.listVersionsFor_perm hlaws hpath
    cases v with
    | simple keep => exact hperm
    | staggered => exact (perm_insertionSort _ _).trans hperm
  restores path time content hpath hrestore := by
    obtain ⟨entry, hentry, hread⟩ := Option.bind_eq_some_iff.mp hrestore
    have htime := List.find?_some hentry
    have hmem := (h.versionEntries_perm hlaws hpath).mem_iff.mp (List.mem_of_find?_eq_some hentry)
    obtain ⟨a, ha, rfl⟩ := List.mem_map.mp hmem
    obtain ⟨ha, hapath⟩ := List.mem_filter.mp ha
    rw [versionTime_name hlaws (h.epoch a ha), decide_eq_true_eq] at htime
    rw [h.read?_version ha] at hread
    exact ⟨a, ha, of_decide_eq_true hapath, Option.some.inj hread, htime⟩

end entries

end VersionedFolder

/-- In a run all of whose calls meet the guard, each file has its own versions. -/
theorem guarded_versions_conform {clock : Clock} {v : Versioner} {maxAgeDays : Option Nat}
    {s s' : VersionedFolder} (hlaws : StampLaws clock) (hs : s.IsFresh)
    (h : Reach (VersionStep clock v maxAgeDays) (VersionedFolder.NameGuard clock) s s') :
    s'.Conforms clock v :=
  (h.invariant (I := fun s => VersionedFolder.Stored clock s.disk s.versions) hs.stored
    fun hok hstep => VersionedFolder.stored_step hlaws hok hstep).conforms hlaws

/-- The decimal digit of a number's last place. -/
def lastDigit (n : Nat) : Char := Char.ofNat (48 + n % 10)

theorem lastDigit_ne {n : Nat} {c : Char} (hc : c ∉ (List.range 10).map lastDigit) :
    lastDigit n ≠ c := by
  rintro rfl
  refine hc (mem_map.mpr ⟨n % 10, mem_range.mpr (Nat.mod_lt n (by decide)), ?_⟩)
  simp [lastDigit]

def firstMinute : List Char := "19700101-0000".toList

/-- A clock of the first minute of 1970. -/
def minuteClock : Clock where
  now := (0, 0)
  formatStamp t := String.ofList (firstMinute ++ [lastDigit (t.toNat / 10), lastDigit t.toNat])
  formatLocalStamp t := String.ofList (firstMinute ++ [lastDigit (t.toNat / 10), lastDigit t.toNat])
  parseStamp s :=
    if s.toList.take 13 = firstMinute then
      match s.toList.drop 13 with
      | [tens, ones] => some (10 * (tens.toNat - 48) + (ones.toNat - 48))
      | _ => none
    else none
  formatDate _ := "19700101"
  formatTime _ := "000000"
  parseDate _ := some 0
  stampLimit := 60
  stamp_tail t := by
    rw [endsWith, Bool.eq_false_iff]
    intro h
    have hmem := (List.isSuffixOf_iff_suffix.mp h).subset (show 'p' ∈ ".tmp".toList by decide)
    rw [String.toList_ofList] at hmem
    rcases mem_append.mp hmem with hmem | hmem
    · exact absurd hmem (by decide)
    · simp only [mem_cons, not_mem_nil, or_false] at hmem
      rcases hmem with h | h <;> exact lastDigit_ne (by decide) h.symm

theorem minuteClock_stampLaws : StampLaws minuteClock where
  parse {secs} h := by
    obtain ⟨n, rfl⟩ := Int.eq_ofNat_of_zero_le h.1
    have hn : n < 60 := by
      have := h.2
      simp only [minuteClock] at this
      omega
    have hdigits : ∀ n < 60, 10 * ((lastDigit (n / 10)).toNat - 48 : Int) +
        ((lastDigit n).toNat - 48) = n := by decide
    have hhead : firstMinute.length = 13 := rfl
    simp only [minuteClock, String.toList_ofList, Int.toNat_natCast]
    rw [← hhead, take_left, drop_left, if_pos rfl]
    exact congrArg some (hdigits n hn)
  noTilde secs := by
    simp only [hasChar, minuteClock, String.toList_ofList, contains_append]
    rw [Bool.or_eq_false_iff]
    refine ⟨by decide, ?_⟩
    simp [Ne.symm, lastDigit_ne (n := secs.toNat) (c := '~') (by decide),
      lastDigit_ne (n := secs.toNat / 10) (c := '~') (by decide)]

/-- Two files of one base name. -/
def twoDocs : VersionedFolder where
  disk := (((FileStore.empty.set ["a"] (.dir (0, 0) 0)).set ["b"] (.dir (0, 0) 0)).set ["a", "doc"]
    (.file [1] (0, 0))).set ["b", "doc"] (.file [2] (0, 0))
  versions := []

theorem twoDocs_isFresh : twoDocs.IsFresh where
  versions := rfl
  disk name := by simp [twoDocs, FileStore.empty, stversionsDir]

/-- The file is archived, changed and archived again five seconds later. -/
theorem guarded_versions_conform_doc : ∃ s,
    Reach (VersionStep minuteClock (.simple 5) none) (VersionedFolder.NameGuard minuteClock)
      twoDocs s ∧ s.versions = [⟨["a", "doc"], 1, [1]⟩, ⟨["a", "doc"], 6, [3]⟩] ∧
      s.Conforms minuteClock (.simple 5) := by
  let s₁ := twoDocs.archive minuteClock (.simple 5) ["a", "doc"] (1, 0)
  have h₁ : Reach (VersionStep minuteClock (.simple 5) none)
      (VersionedFolder.NameGuard minuteClock) twoDocs s₁ :=
    Reach.refl.next .archive
      fun _ => ⟨by decide, by simp [VersionedFolder.Isolated, twoDocs], by simp [twoDocs]⟩
  let s₂ : VersionedFolder := ⟨s₁.disk.set ["a", "doc"] (.file [3] (5, 0)), s₁.versions⟩
  have h₂ := h₁.next (@VersionStep.edit _ _ _ s₁ s₂.disk fun name => by
    rw [FileStore.node_set, if_neg]
    simp [stversionsDir]) trivial
  have hversions : s₁.versions = [⟨["a", "doc"], 1, [1]⟩] := by decide
  have h := h₂.next (@VersionStep.archive _ _ _ s₂ ["a", "doc"] (6, 0)) fun _ =>
    ⟨by decide, by simp [VersionedFolder.Isolated, hversions], by simp [hversions]⟩
  exact ⟨_, h, by decide, guarded_versions_conform minuteClock_stampLaws twoDocs_isFresh h⟩

/-- Both files are archived within a second, and the second copy takes the place of the first. -/
theorem archived_version_overwritten : StampLaws minuteClock ∧ twoDocs.IsFresh ∧
    ∃ s, Reach (VersionStep minuteClock (.simple 5) none) (fun _ _ => True) twoDocs s ∧
      s.versions = [⟨["a", "doc"], 1, [1]⟩, ⟨["b", "doc"], 1, [2]⟩] ∧
      ¬ s.Conforms minuteClock (.simple 5) := by
  refine ⟨minuteClock_stampLaws, twoDocs_isFresh, _, (Reach.refl.next
    (@VersionStep.archive _ _ _ _ ["a", "doc"] (1, 0)) trivial).next
    (@VersionStep.archive _ _ _ _ ["b", "doc"] (1, 0)) trivial, by decide, fun h => ?_⟩
  have hlost := h.holds ⟨["a", "doc"], 1, [1]⟩ (by decide)
  revert hlost
  decide

end Syncthing
