import Syncthing.Sync.ArchiveFrame
import Syncthing.Sync.FailedDownloads
import Syncthing.Sync.PendingPulls

/-! How many files one call of `pull_folder` takes out of the folder. Its tasks run in any order. -/
namespace Syncthing

open FileStore PullEnv List Disk

variable {env : PullEnv} {st st' : FolderState} {info : FileInfo} {d d' : Disk}
  {p q path : List String} {needed tasks : List FileInfo}

/-- A file or a link is at the path. -/
def Disk.holdsFile (d : Disk) (p : List String) : Bool :=
  match d.nodeAt p with
  | some (.file ..) | some (.symlink ..) => true
  | some (.dir ..) | none => false

/-- The files of a folder, hidden and ignored ones among them, apart from what the program keeps for
itself in the archive, in the trash and in temporary files. -/
def ordinaryFiles (d : Disk) : List (List String) :=
  d.paths.dedup.filter fun p => decide (Ordinary p) && d.holdsFile p

def removedFiles (d d' : Disk) : List (List String) := (ordinaryFiles d).filter (!d'.holdsFile ·)

/-- A deletion of the path or of a directory above it is among the entries. -/
def deletedByEntry (entries : List FileInfo) (p : List String) : Bool :=
  entries.any fun info => info.isDeleted && decide (namePath info.name <+: p)

/-- The files at and below the paths of deletions. -/
def doomedFiles (d : Disk) (entries : List FileInfo) : List (List String) :=
  (ordinaryFiles d).filter (deletedByEntry entries)

variable (db : FolderFiles)

def deleteQuota : Nat :=
  max pullDeleteQuotaMin ((db.entries.filter (!·.isDeleted)).length / 4)

/-- Tasks of a pull, one after the other, each allowed by `ok` in the state it finds. -/
inductive RunTasks (ok : FolderState → PullEnv → FileInfo → Prop) :
    FolderState → List (PullEnv × FileInfo) → FolderState → Prop where
  | nil {st : FolderState} : RunTasks ok st [] st
  | cons {st : FolderState} {env : PullEnv} {info : FileInfo} {r : Downloaded}
    {rest : List (PullEnv × FileInfo)} {st' : FolderState}
    (hok : ok st env info) (h : env.pullTask st info = some r)
    (hrest : RunTasks ok r.state rest st') : RunTasks ok st ((env, info) :: rest) st'

/-- One call of `pull_folder`: the tasks it plans, in any order. -/
def PullCall (ok : FolderState → PullEnv → FileInfo → Prop) (env : PullEnv)
    (st : FolderState) (needed tasks : List FileInfo) (st' : FolderState) : Prop :=
  ∃ disk, env.pullTasks st needed = (.ok tasks, disk) ∧
    ∃ order : List (PullEnv × FileInfo), (order.map Prod.snd).Perm tasks ∧
      RunTasks ok ⟨st.db, disk⟩ order st'

/-- Nothing is below a path that is no directory. -/
def LeafOrDir (d : Disk) (p : List String) : Prop :=
  d.holdsDir p = true ∨ ∀ q, p <+: q → q ≠ p → d.node q = none

/-- A download finds no file above other files in its place, and its rename does not fail. -/
def DownloadOk (st : FolderState) (env : PullEnv) (info : FileInfo) : Prop :=
  info.isDeleted = false → info.fileType = .file →
    LeafOrDir st.disk (namePath info.name) ∧ env.fault (.rename 0) = none

@[simp] theorem Disk.holdsFile_nil : d.holdsFile [] = false := by simp [holdsFile, nodeAt]

theorem Disk.holdsFile_congr (h : d'.node p = d.node p) : d'.holdsFile p = d.holdsFile p := by
  unfold holdsFile nodeAt
  rw [h]

theorem Disk.ne_nil_of_holdsFile (h : d.holdsFile p = true) : p ≠ [] := by
  rintro rfl
  simp at h

theorem Disk.not_holdsFile_of_none (h : d.node p = none) : d.holdsFile p = false := by
  by_cases hp : p = []
  · rw [hp, holdsFile_nil]
  · rw [holdsFile, nodeAt_eq hp, h]

theorem Disk.holdsFile_of_read? {content : Bytes} (h : d.read? p = some content) :
    d.holdsFile p = true := by
  unfold read? at h
  unfold holdsFile
  split at h
  next hnode => rw [hnode]
  next hnode => rw [hnode]
  · cases h

theorem Disk.holdsDir_of_holdsFile (h : d.holdsFile p = true) : d.holdsDir p = false := by
  rw [holdsFile, nodeAt_eq (ne_nil_of_holdsFile h)] at h
  unfold holdsDir
  cases hn : d.node p with
  | none => rfl
  | some node =>
    cases node with
    | dir => simp [hn] at h
    | file | symlink => rfl

theorem Disk.holdsFile_setMtime {modified : Mtime} (hp : p ≠ []) :
    (d.setMtime p modified).holdsFile q = d.holdsFile q := by
  unfold setMtime
  split
  next content old hnode =>
    by_cases hq : q = p
    · subst hq
      rw [holdsFile, holdsFile, hnode, nodeAt_eq hp]
      simp
    · exact holdsFile_congr (if_neg hq)
  · rfl

theorem MadeTo.holdsFile (h : MadeTo path d d' q) (hfile : d.holdsFile q = true) :
    d'.holdsFile q = true := by
  rcases h with h | ⟨-, hnone, -⟩
  · rw [holdsFile_congr h, hfile]
  · rw [not_holdsFile_of_none hnone] at hfile
    cases hfile

theorem Disk.read?_of_node (h : d'.node p = d.node q) (hp : p ≠ []) (hq : q ≠ []) :
    d'.read? p = d.read? q :=
  read?_congr (by rw [nodeAt_eq hp, nodeAt_eq hq, h])

/-- A file is not renamed onto a directory. -/
theorem Disk.holdsDir_of_rename (h : d.rename p q = .ok d') {c : Bytes} (hread : d.read? p = some c)
    (hne : p ≠ q) : d.holdsDir q = false := by
  by_contra hdir
  obtain ⟨modified, len, hn⟩ := nodeAt_of_holdsDir (by simpa using hdir)
  have hrepl : d.replaceable p q = false := by
    unfold read? at hread
    unfold replaceable
    rw [hn]
    split at hread
    next hsrc => rw [hsrc]
    next hsrc => rw [hsrc]
    · cases hread
  unfold rename at h
  rw [if_neg hne, hrepl] at h
  simp at h

namespace PullEnv

/-- The first rename only fails where a directory is in the way. -/
theorem holdsDir_of_renameWithRetry {temp : List String} {content : Bytes}
    (hfault : env.fault (.rename 0) = none) (hparent : d.isDir path.dropLast = true)
    (htemp : d.read? temp = some content) (hpath : path ≠ []) (hlen : temp.length = path.length)
    (hne : temp ≠ path) (hfailed : (env.renameWithRetry d temp path).1 = false) :
    d.holdsDir path = true := by
  by_contra hdir
  have hready : Renames temp path d := ⟨by simp [htemp], hparent, by simpa using hdir⟩
  have hrefuses := (renameWithRetry_refused_iff hpath hlen hne hready).mp hfailed 0 (Nat.zero_le _)
  simp [hfault] at hrefuses

/-- A download takes no file away: its target is kept or replaced by a file. -/
theorem Downloads.holdsFile {r : Downloaded} (h : Downloads env st info r)
    (hfault : env.fault (.rename 0) = none) (hleaf : LeafOrDir st.disk (namePath info.name))
    (hv : Ordinary q) (hfile : st.disk.holdsFile q = true) : r.state.disk.holdsFile q = true := by
  have hq := ne_nil_of_holdsFile hfile
  by_cases hle : namePath info.name <+: q
  swap
  · exact (h.madeTo hv hq hle).holdsFile hfile
  have hpath := namePath_ne_nil info.name
  have htempne := tempPathFor_ne hpath
  have hvpath : Ordinary (namePath info.name) := hv.of_le hle
  cases h with
  | untouched => exact hfile
  | prepared e d hp => rwa [holdsFile_congr (hp.node_of_le hv.ne_tempPathFor hpath hle)]
  | installed d recorded result state merged hp hrec hname hversion hi =>
    have harchive : ∀ q ∉ archivePlace,
        (env.archiveExisting d (namePath info.name)).node q = d.node q :=
      fun q hq => sameOutside_archiveExisting q hq
    have hkept : ∀ q, Ordinary q → q ≠ [] → namePath info.name <+: q →
        (env.archiveExisting d (namePath info.name)).node q = st.disk.node q := fun q hv hq hle =>
      (harchive q (hv.notMem_archivePlace hq)).trans (hp.node_of_le hv.ne_tempPathFor hpath hle)
    obtain ⟨content, hcontent⟩ := hp.content
    have htemp : (env.archiveExisting d (namePath info.name)).read?
        (tempPathFor (namePath info.name)) = some content := by
      rw [← hcontent]
      exact read?_of_node (harchive _ hvpath.tempPathFor_notMem_archivePlace)
        (tempPathFor_ne_nil _) (tempPathFor_ne_nil _)
    have htarget := hkept _ hvpath hpath (prefix_refl _)
    -- a directory in the place of the file stays, and no file is below anything else
    have hplace : ∀ {d1 d2 : Disk}, Cleared (namePath info.name)
        (env.archiveExisting d (namePath info.name)) d1 →
        d1.rename (tempPathFor (namePath info.name)) (namePath info.name) = .ok d2 →
        d2.holdsFile q = true := by
      intro d1 d2 hc hr
      have hsrc : d1.read? (tempPathFor (namePath info.name)) = some content := by
        rw [← htemp]
        exact read?_of_node (hc.others _ htempne) (tempPathFor_ne_nil _) (tempPathFor_ne_nil _)
      have hnodir : st.disk.holdsDir (namePath info.name) = false := by
        by_contra hdir
        rw [Bool.not_eq_false, ← holdsDir_congr htarget] at hdir
        have hd1 := holdsDir_of_rename hr hsrc htempne
        rw [holdsDir_congr (hc.dir hdir), hdir] at hd1
        cases hd1
      obtain rfl : q = namePath info.name := by
        by_contra hne
        rcases hleaf with hdir | hleaf
        · rw [hnodir] at hdir
          cases hdir
        · rw [not_holdsFile_of_none (hleaf q hle hne)] at hfile
          cases hfile
      have hread : d2.read? (namePath info.name) = some content := by
        rw [← hsrc]
        exact read?_congr (nodeAt_rename hr (tempPathFor_ne_nil _) hpath)
      exact holdsFile_of_read? hread
    cases hi with
    | failed d1 hc hfailed =>
      have hparent : (env.archiveExisting d (namePath info.name)).isDir
          (namePath info.name).dropLast = true := by
        rw [← hp.parent]
        unfold isDir nodeAt
        by_cases hroot : (namePath info.name).dropLast = []
        · rw [if_pos hroot, if_pos hroot]
        · rw [if_neg hroot, if_neg hroot,
            harchive _ ((hvpath.of_le (List.dropLast_prefix _)).notMem_archivePlace hroot)]
      have hdir := holdsDir_of_renameWithRetry hfault hparent htemp hpath
        (tempPathFor_length hpath) htempne hfailed
      have hne : q ≠ namePath info.name := by
        rintro rfl
        rw [holdsDir_congr htarget, holdsDir_of_holdsFile hfile] at hdir
        cases hdir
      rwa [holdsFile_congr (hc.others q hne), holdsFile_congr (hkept q hv hq hle)]
    | panicked d1 d2 hc hr htime => exact hplace hc hr
    | done d1 d2 d3 hc hr hd =>
      rcases hd with rfl | ⟨modified, rfl⟩
      · exact hplace hc hr
      · rw [holdsFile_setMtime hpath]
        exact hplace hc hr

/-- A deletion takes nothing that is not at or below its path. -/
theorem holdsFile_deleteFile (hv : Ordinary q) (hle : ¬ namePath info.name <+: q)
    (hfile : st.disk.holdsFile q = true) : (env.deleteFile st info).2.disk.holdsFile q = true := by
  have hmoved : (env.moveToTrash st.disk info.name).2.holdsFile q = true := by
    unfold moveToTrash
    simp only
    split
    · exact hfile
    next d1 h1 =>
      have hmade := (madeTo_createDirAll (orFault_eq_ok.mp h1).2 q).holdsFile hfile
      split
      · exact hmade
      next d2 h2 =>
        rw [holdsFile_congr (sameOutside_rename (orFault_eq_ok.mp h2).2 q ?_), hmade]
        rintro (h | h)
        · exact hle h
        · exact hv.not_le_trash ((env.sttrash_prefix_trashPath d1 info.name).trans h)
  rcases env.deleteFile_spec.2.1 with h | h
  · rw [h, hfile]
  · rw [h, hmoved]

/-- A task takes a file only by a deletion at or above it. -/
theorem holdsFile_pullTask {r : Downloaded} (h : env.pullTask st info = some r)
    (hok : DownloadOk st env info) (hv : Ordinary q) (hfile : st.disk.holdsFile q = true) :
    r.state.disk.holdsFile q = true ∨ deletedByEntry [info] q = true := by
  unfold pullTask at h
  split at h
  next hdeleted =>
    cases h
    by_cases hle : namePath info.name <+: q
    · exact .inr (by simp [deletedByEntry, hdeleted, hle])
    · exact .inl (holdsFile_deleteFile hv hle hfile)
  next hlive =>
    split at h
    · cases h
      exact .inl (madeTo_createDirectory.holdsFile hfile)
    next htype =>
      obtain ⟨hleaf, hfault⟩ := hok (by simpa using hlive) htype
      exact .inl ((downloads h).holdsFile hfault hleaf hv hfile)
    · cases h
      exact .inl hfile

end PullEnv

/-- The run of the tasks, by induction on those that are left. -/
theorem RunTasks.holdsFile {order : List (PullEnv × FileInfo)}
    (h : RunTasks DownloadOk st order st') (hv : Ordinary q) (hfile : st.disk.holdsFile q = true) :
    st'.disk.holdsFile q = true ∨ deletedByEntry (order.map Prod.snd) q = true := by
  induction h with
  | nil => exact .inl hfile
  | @cons st env info r rest st' hok h hrest ih =>
    rcases holdsFile_pullTask h hok hv hfile with hfile | hdeleted
    · refine (ih hfile).imp_right fun hdeleted => ?_
      simp only [deletedByEntry, map_cons, any_cons, Bool.or_eq_true]
      exact .inr hdeleted
    · right
      simp only [deletedByEntry, any_cons, any_nil, Bool.or_false] at hdeleted
      simp only [deletedByEntry, map_cons, any_cons, hdeleted, Bool.true_or]

theorem pullTasks_ok {disk : Disk} (h : env.pullTasks st needed = (.ok tasks, disk)) :
    tasks = withinDeleteQuota st.db needed ∧ disk = env.cleanupSttrash st.disk := by
  unfold pullTasks at h
  split at h
  · cases h
  · cases h
  · cases h
    exact ⟨rfl, rfl⟩

theorem filter_not_isDeleted_withinDeleteQuota (needed : List FileInfo) :
    (withinDeleteQuota db needed).filter (!·.isDeleted) = needed.filter (!·.isDeleted) := by
  unfold withinDeleteQuota
  simp only
  split
  · rw [filter_filter]
    simp
  · rfl

section
variable (h : PullCall DownloadOk env st needed tasks st')
include h

/-- A file that a call takes away is at or below the path of a deletion it carries out. -/
theorem PullCall.holdsFile (hv : Ordinary q) (hfile : st.disk.holdsFile q = true) :
    st'.disk.holdsFile q = true ∨ deletedByEntry tasks q = true := by
  obtain ⟨disk, htasks, order, hperm, hrun⟩ := h
  obtain ⟨-, rfl⟩ := pullTasks_ok htasks
  have hclean : (env.cleanupSttrash st.disk).holdsFile q = true := by
    rw [← hfile]
    exact holdsFile_congr (sameOutside_cleanupSttrash q hv.not_le_trash)
  refine (hrun.holdsFile hv hclean).imp_right fun hdeleted => ?_
  rw [← hdeleted]
  exact (hperm.any_eq).symm

theorem PullCall.removedFiles_le :
    (removedFiles st.disk st'.disk).length ≤ (doomedFiles st.disk tasks).length := by
  unfold removedFiles doomedFiles
  rw [← countP_eq_length_filter, ← countP_eq_length_filter]
  refine countP_mono_left fun q hmem hremoved => ?_
  simp only [ordinaryFiles, mem_filter, Bool.and_eq_true, decide_eq_true_eq] at hmem
  refine (h.holdsFile hmem.2.1 hmem.2.2).resolve_left fun hkept => ?_
  rw [hkept] at hremoved
  cases hremoved

end

/-- A directory `d` of a hidden file and `n` others that the index does not know. -/
def fullDirectory (n : Nat) : FolderState where
  db := KeyedList.empty
  disk := (range n).foldl
    (fun d i => d.set ["d", String.ofList (replicate (i + 1) 'f')] (.file [7] (0, 0)))
    ((FileStore.empty.set ["d"] (.dir (0, 0) 4096)).set ["d", ".env"] (.file [7] (0, 0)))

def deletionOfD : FileInfo := { FileInfo.new "d" with
    fileType := .directory
    deleted := some true
    version := Vector.new.withCounter 5 2 }

theorem pullCall_fullDirectory (n : Nat) :
    PullCall DownloadOk calmEnv (fullDirectory n) [deletionOfD] [deletionOfD]
      (calmEnv.deleteFile ⟨.empty, calmEnv.cleanupSttrash (fullDirectory n).disk⟩
        deletionOfD).2 := by
  have htasks : withinDeleteQuota KeyedList.empty [deletionOfD] = [deletionOfD] := by decide
  refine ⟨calmEnv.cleanupSttrash (fullDirectory n).disk, ?_, [(calmEnv, deletionOfD)], .refl _,
    .cons (fun h => (by cases h)) rfl .nil⟩
  simp [pullTasks, fullDirectory, htasks, calmEnv]

end Syncthing
