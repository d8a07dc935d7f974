import Syncthing.Sync.Puller

/-! Every call of the puller changes the disk inside a few known places: the directories above a
file, its temporary file, the archive, the trash and the file itself. -/
namespace Syncthing

open FileStore Disk Relation

variable {env : PullEnv} {st : FolderState} {info recorded : FileInfo} {d d' d'' : Disk}
  {p q path temp : List String} {S : Set (List String)} {content : Bytes} {now modified : Mtime}

namespace Disk

theorem sameOutside_write (h : d.write p content now = .ok d') (hp : p ∈ S) :
    SameOutside S d d' := by
  unfold write at h
  split at h
  · cases h
  · split at h <;> cases h <;> exact sameOutside_set hp

theorem sameOutside_overwrite (hp : p ∈ S) : SameOutside S d (d.overwrite p content now) := by
  unfold overwrite
  split <;> exact sameOutside_set hp

theorem sameOutside_removeFile (h : d.removeFile p = .ok d') (hp : p ∈ S) : SameOutside S d d' := by
  unfold removeFile at h
  split at h <;> cases h
  exact sameOutside_remove hp

theorem sameOutside_setMtime (hp : p ∈ S) : SameOutside S d (d.setMtime p modified) := by
  unfold setMtime
  split
  · exact sameOutside_set hp
  · exact .refl

theorem sameOutside_rename (h : d.rename p q = .ok d') : SameOutside (under p ∪ under q) d d' := by
  rcases rename_cases h with ⟨-, rfl⟩ | rfl
  · exact .refl
  · exact sameOutside_move

theorem node_createDirAll (h : d.createDirAll p now = .ok d') :
    d'.node q = if q <+: p then (d.node q).or (some (.dir now 4096)) else d.node q := by
  unfold createDirAll at h
  split at h <;> cases h
  rfl

def isSymlink (d : Disk) (p : List String) : Bool :=
  match d.nodeAt p with
  | some (.symlink ..) => true
  | _ => false

theorem isSymlink_congr (h : d'.nodeAt p = d.nodeAt q) : d'.isSymlink p = d.isSymlink q := by
  simp only [isSymlink, h]

/-- What is read without following a link is a file. -/
theorem file_of_read? (h : d.read? p = some content)
    (hplain : d.isSymlink p = false) : ∃ modified, d.nodeAt p = some (.file content modified) := by
  unfold read? at h
  unfold isSymlink at hplain
  split at h
  next modified hn =>
    cases h
    exact ⟨modified, hn⟩
  next hn => simp [hn] at hplain
  · cases h

/-- A directory stands at the path, and no link to one. -/
def holdsDir (d : Disk) (p : List String) : Bool :=
  match d.node p with
  | some (.dir ..) => true
  | _ => false

theorem holdsDir_congr (h : d'.node p = d.node q) : d'.holdsDir p = d.holdsDir q := by
  simp only [holdsDir, h]

theorem nodeAt_of_holdsDir (h : d.holdsDir p = true) :
    ∃ modified len, d.nodeAt p = some (.dir modified len) := by
  unfold holdsDir at h
  split at h
  next modified len hn =>
    by_cases hp : p = []
    · exact ⟨_, _, if_pos hp⟩
    · exact ⟨modified, len, (nodeAt_eq hp).trans hn⟩
  · cases h

theorem holdsDir_of_write (h : d.write p content now = .ok d') : d.holdsDir p = false := by
  by_contra hdir
  obtain ⟨modified, len, hn⟩ := nodeAt_of_holdsDir (by simpa using hdir)
  simp only [write, hn] at h
  split at h <;> cases h

theorem holdsDir_of_removeFile (h : d.removeFile p = .ok d') : d.holdsDir p = false := by
  by_contra hdir
  obtain ⟨modified, len, hn⟩ := nodeAt_of_holdsDir (by simpa using hdir)
  simp [removeFile, hn] at h

theorem isSymlink_write (h : d.write p content now = .ok d') (hp : p ≠ [])
    (hlink : d.isSymlink p = false) : d'.isSymlink p = false := by
  unfold write at h
  split at h
  · cases h
  · split at h
    · cases h
    · cases h
    next hn => simp [isSymlink, hn] at hlink
    · cases h
      simp [isSymlink, nodeAt, hp]
    · cases h
      simp [isSymlink, nodeAt, hp]

theorem isSymlink_overwrite (hp : p ≠ []) (hlink : d.isSymlink p = false) :
    (d.overwrite p content now).isSymlink p = false := by
  unfold overwrite
  split
  next hn => simp [isSymlink, hn] at hlink
  · simp [isSymlink, nodeAt, hp]

theorem isSymlink_setMtime (hp : p ≠ []) (hlink : d.isSymlink p = false) :
    (d.setMtime p modified).isSymlink p = false := by
  unfold setMtime
  split
  · simp [isSymlink, nodeAt, hp]
  · exact hlink

end Disk

/-- The disk as it was, or without the file at `path`. A directory there stays. -/
structure Cleared (path : List String) (d d' : Disk) : Prop where
  others : SameOutside {path} d d'
  target : d'.node path = d.node path ∨ d'.node path = none
  dir : d.holdsDir path = true → d'.node path = d.node path

theorem Cleared.refl : Cleared path d d := ⟨.refl, .inl rfl, fun _ => rfl⟩

theorem Cleared.trans (h : Cleared path d d') (h' : Cleared path d' d'') : Cleared path d d'' := by
  refine ⟨h.others.trans h'.others, ?_, fun hdir => ?_⟩
  · rcases h'.target with ht' | ht'
    · rcases h.target with ht | ht
      · exact .inl (ht'.trans ht)
      · exact .inr (ht'.trans ht)
    · exact .inr ht'
  · have hd := h.dir hdir
    exact (h'.dir ((holdsDir_congr hd).trans hdir)).trans hd

/-- The disk with the directories above a file made and its temporary file written. -/
structure Prepared (d : Disk) (path : List String) (now : Mtime) (d' : Disk) : Prop where
  parents : ∀ q, q ≠ tempPathFor path →
    d'.node q = if q <+: path.dropLast then (d.node q).or (some (.dir now 4096)) else d.node q
  plain : d.isSymlink (tempPathFor path) = false → d'.isSymlink (tempPathFor path) = false

/-- A prepared disk whose temporary file holds what was fetched. -/
structure Fetched (d : Disk) (path : List String) (now : Mtime) (d' : Disk) : Prop
    extends Prepared d path now d' where
  fresh : d.holdsDir (tempPathFor path) = false
  content : ∃ content, d'.read? (tempPathFor path) = some content
  parent : d'.isDir path.dropLast = true

/-- The places the archive is made in. -/
def archivePlace : Set (List String) := {q | q = [] ∨ stversionsDir <+: q}

theorem versionPath_mem_archivePlace (path : List String) (timestamp : String) :
    versionPath path timestamp ∈ archivePlace := .inr (List.prefix_append _ _)

/-- The steps that archiving is made of: the directory, a version more and a version less. -/
inductive ArchiveStep (clock : Clock) (path : List String) (d d' : Disk) : Prop where
  | createDir {now : Mtime} (h : d.createDirAll stversionsDir now = .ok d')
  | write {t : Int} {content : Bytes} {now : Mtime}
    (h : d.write (versionPath path (clock.formatStamp t)) content now = .ok d')
  | remove {t : Int} (h : d.removeFile (versionPath path (clock.formatStamp t)) = .ok d')

section archive
variable {clock : Clock} {faults : ArchiveFaults}

/-- The steps of archiving: the directory, and the copy. -/
theorem archiveFile_cases (clock : Clock) (faults : ArchiveFaults) (d : Disk) (path : List String) :
    (archiveFile clock faults d path).2 = d ∨
    ∃ d1, d.createDirAll stversionsDir clock.now = .ok d1 ∧
      ((archiveFile clock faults d path).2 = d1 ∨ ∃ content,
        d1.write (versionPath path (clock.formatStamp clock.now.1)) content clock.now =
          .ok (archiveFile clock faults d path).2) := by
  unfold archiveFile
  split
  · exact .inl rfl
  next d1 h1 =>
    refine .inr ⟨d1, (orFault_eq_ok.mp h1).2, ?_⟩
    split
    · exact .inl rfl
    next d2 h2 =>
      have h2 := (orFault_eq_ok.mp h2).2
      unfold copy at h2
      split at h2
      · cases h2
      · exact .inr ⟨_, h2⟩

theorem archiveFile_steps :
    ReflTransGen (ArchiveStep clock path) d (archiveFile clock faults d path).2 := by
  rcases archiveFile_cases clock faults d path with h | ⟨d1, h1, h | ⟨content, h⟩⟩
  · rw [h]
  · rw [h]
    exact .single (.createDir h1)
  · exact .tail (.single (.createDir h1)) (.write h)

theorem pruneVersions_steps (times : List Mtime) (d : Disk) :
    ReflTransGen (ArchiveStep clock path) d (pruneVersions clock faults path times d).2 := by
  induction times generalizing d with
  | nil => exact .refl
  | cons old rest ih =>
    simp only [pruneVersions]
    split
    · split
      · exact .refl
      next d1 h1 => exact .head (.remove (orFault_eq_ok.mp h1).2) (ih d1)
    · exact ih d

theorem archive_steps (v : Versioner) :
    ReflTransGen (ArchiveStep clock path) d (v.archive clock faults d path).2 := by
  have hcopy : ReflTransGen (ArchiveStep clock path) d (archiveFile clock faults d path).2 :=
    archiveFile_steps
  unfold Versioner.archive
  split
  · exact .refl
  · split
    next d1 keep h1 =>
      rw [h1] at hcopy
      exact hcopy.trans (pruneVersions_steps _ d1)
    · exact hcopy

end archive

namespace PullEnv

/-- What the steps of archiving keep, archiving keeps. -/
theorem archiveExisting_induction {P : Disk → Prop} (h : P d)
    (hkeeps : ∀ {d d'}, ArchiveStep env.clock path d d' → P d → P d') :
    P (env.archiveExisting d path) := by
  have hsteps : ReflTransGen (ArchiveStep env.clock path) d (env.archiveExisting d path) := by
    unfold archiveExisting
    split
    · split
      · exact archive_steps _
      · exact .refl
    · exact .refl
  generalize env.archiveExisting d path = d' at hsteps ⊢
  induction hsteps with
  | refl => exact h
  | tail _ hstep ih => exact hkeeps hstep ih

theorem sameOutside_archiveExisting : SameOutside archivePlace d (env.archiveExisting d path) := by
  refine archiveExisting_induction (P := SameOutside _ d) .refl fun hstep ih => ih.trans ?_
  cases hstep with
  | createDir h =>
    intro q hq
    rw [node_createDirAll h, if_neg]
    intro hle
    rcases List.prefix_cons_iff.mp hle with rfl | ⟨rest, rfl, hrest⟩
    · exact hq (.inl rfl)
    · exact hq (.inr (List.prefix_append stversionsDir rest))
  | write h => exact sameOutside_write h (versionPath_mem_archivePlace _ _)
  | remove h => exact sameOutside_removeFile h (versionPath_mem_archivePlace _ _)

theorem cleared_removeTarget {attempt : Nat} : Cleared path d (env.removeTarget d path attempt) := by
  unfold removeTarget
  split
  · split
    next d1 h1 =>
      have h1 := (orFault_eq_ok.mp h1).2
      refine ⟨sameOutside_removeFile h1 rfl, .inr ?_, fun hdir => ?_⟩
      · unfold removeFile at h1
        split at h1 <;> cases h1
        simp
      · rw [holdsDir_of_removeFile h1] at hdir
        cases hdir
    · exact .refl
  · exact .refl

theorem renameRetries_cases {left attempt : Nat} {renamed : Bool}
    (h : env.renameRetries temp path left attempt d = (renamed, d')) :
    ∃ d1, Cleared path d d1 ∧ if renamed then d1.rename temp path = .ok d' else d' = d1 := by
  induction left generalizing attempt d with
  | zero =>
    cases h
    exact ⟨_, .refl, rfl⟩
  | succ left ih =>
    simp only [renameRetries] at h
    split at h
    next d1 h1 =>
      cases h
      exact ⟨_, cleared_removeTarget, (orFault_eq_ok.mp h1).2⟩
    · obtain ⟨d1, hc, hr⟩ := ih h
      exact ⟨d1, cleared_removeTarget.trans hc, hr⟩

/-- A rename removes at most the target before it succeeds or gives up. -/
theorem renameWithRetry_cases (env : PullEnv) (d : Disk) (temp path : List String) :
    ∃ d1, Cleared path d d1 ∧ if (env.renameWithRetry d temp path).1
      then d1.rename temp path = .ok (env.renameWithRetry d temp path).2
      else (env.renameWithRetry d temp path).2 = d1 := by
  unfold renameWithRetry
  split
  next d1 h1 => exact ⟨d, .refl, (orFault_eq_ok.mp h1).2⟩
  · exact renameRetries_cases rfl

/-- How an installation ends, and what it leaves. -/
inductive Installed (env : PullEnv) (st : FolderState) (info recorded : FileInfo) :
    TaskResult → FolderState → Prop where
  | failed (d : Disk) (hc : Cleared (namePath info.name) st.disk d)
    (hfailed : (env.renameWithRetry st.disk (tempPathFor (namePath info.name))
      (namePath info.name)).1 = false) :
    Installed env st info recorded (.error (renameError info.name)) ⟨st.db, d⟩
  | panicked (d d' : Disk) (hc : Cleared (namePath info.name) st.disk d)
    (hr : d.rename (tempPathFor (namePath info.name)) (namePath info.name) = .ok d')
    (htime : systemTime info = none) : Installed env st info recorded .panicked ⟨st.db, d'⟩
  | done (d d' d'' : Disk) (hc : Cleared (namePath info.name) st.disk d)
    (hr : d.rename (tempPathFor (namePath info.name)) (namePath info.name) = .ok d')
    (hd : d'' = d' ∨ ∃ modified, d'' = d'.setMtime (namePath info.name) modified) :
    Installed env st info recorded .ok
      ⟨if (env.fault .dbUpdate).isSome then st.db else st.db.upsert recorded, d''⟩

theorem installed_of_eq {result : TaskResult} {st' : FolderState}
    (h : env.install st info recorded = (result, st')) :
    Installed env st info recorded result st' := by
  obtain ⟨d, hc, hr⟩ := env.renameWithRetry_cases st.disk (tempPathFor (namePath info.name))
    (namePath info.name)
  unfold install at h
  simp only at h
  split at h
  next hren =>
    rw [Bool.not_eq_true'] at hren
    rw [hren] at hr
    cases h
    rw [show (env.renameWithRetry st.disk _ _).2 = d from hr]
    exact .failed d hc hren
  next hren =>
    rw [Bool.not_eq_true', Bool.not_eq_false] at hren
    rw [hren, if_pos rfl] at hr
    split at h
    next htime =>
      cases h
      exact .panicked d _ hc hr htime
    · cases h
      refine .done d _ _ hc hr ?_
      split
      · exact .inl rfl
      · exact .inr ⟨_, rfl⟩

/-- How a download ends, and what it leaves. -/
inductive Downloads (env : PullEnv) (st : FolderState) (info : FileInfo) : Downloaded → Prop where
  | untouched (e : SyncError) : Downloads env st info ⟨.error e, st, false⟩
  | prepared (e : SyncError) (d : Disk)
    (hp : Prepared st.disk (namePath info.name) env.clock.now d) :
    Downloads env st info ⟨.error e, ⟨st.db, d⟩, false⟩
  | installed (d : Disk) (recorded : FileInfo) (result : TaskResult) (state : FolderState)
    (merged : Bool) (hp : Fetched st.disk (namePath info.name) env.clock.now d)
    (hrec : merged = false → recorded = info)
    (hname : recorded.name = info.name) (hversion : recorded.version = info.version)
    (hi : Installed env ⟨st.db, env.archiveExisting d (namePath info.name)⟩ info recorded
      result state) : Downloads env st info ⟨result, state, merged⟩

end PullEnv

/-- The temporary file is no directory above the file. -/
theorem ne_tempPathFor_of_le (hq : q <+: path.dropLast) : q ≠ tempPathFor path := by
  rintro rfl
  have := hq.length_le
  simp only [tempPathFor, List.length_append, List.length_singleton] at this
  omega

section
variable (h : d.createDirAll path.dropLast now = .ok d')
include h

theorem node_temp_createDirAll : d'.node (tempPathFor path) = d.node (tempPathFor path) := by
  rw [node_createDirAll h, if_neg fun hle => ne_tempPathFor_of_le hle rfl]

theorem Prepared.of_createDirAll : Prepared d path now d' := by
  have hne := tempPathFor_ne_nil path
  have hnode := node_temp_createDirAll h
  refine ⟨fun q _ => node_createDirAll h, fun hlink => ?_⟩
  rw [← hlink]
  exact isSymlink_congr (by rw [nodeAt_eq hne, nodeAt_eq hne, hnode])

end

theorem Prepared.trans (h : Prepared d path now d') (ho : SameOutside {tempPathFor path} d' d'')
    (hl : d'.isSymlink (tempPathFor path) = false → d''.isSymlink (tempPathFor path) = false) :
    Prepared d path now d'' :=
  ⟨fun q hq => (ho q hq).trans (h.parents q hq), fun hlink => hl (h.plain hlink)⟩

theorem Prepared.write (h : Prepared d path now d')
    (hw : d'.write (tempPathFor path) content modified = .ok d'') : Prepared d path now d'' :=
  h.trans (sameOutside_write hw rfl) (isSymlink_write hw (tempPathFor_ne_nil _))

/-- The directory of the temporary file is that of the file, and not the temporary file. -/
theorem isDir_parent_of_sameOutside (h : SameOutside {tempPathFor path} d d') :
    d'.isDir path.dropLast = d.isDir path.dropLast := by
  unfold isDir nodeAt
  rw [h _ (ne_tempPathFor_of_le List.prefix_rfl)]

theorem isDir_parent_of_write (h : d.write (tempPathFor path) content modified = .ok d') :
    d'.isDir path.dropLast = true := by
  rw [isDir_parent_of_sameOutside (sameOutside_write h rfl)]
  unfold write at h
  split at h
  · cases h
  next hdir => simpa [tempPathFor] using hdir

theorem Fetched.of_write (h : d.createDirAll path.dropLast now = .ok d')
    (hw : d'.write (tempPathFor path) content modified = .ok d'') : Fetched d path now d'' := by
  refine ⟨(Prepared.of_createDirAll h).write hw, ?_, ⟨content, ?_⟩, isDir_parent_of_write hw⟩
  · rw [← holdsDir_congr (node_temp_createDirAll h)]
    exact holdsDir_of_write hw
  · exact read?_write hw (tempPathFor_ne_nil _)

theorem Fetched.write (h : Fetched d path now d')
    (hw : d'.write (tempPathFor path) content modified = .ok d'') : Fetched d path now d'' :=
  ⟨h.toPrepared.write hw, h.fresh, ⟨content, read?_write hw (tempPathFor_ne_nil _)⟩,
    isDir_parent_of_write hw⟩

theorem Fetched.overwrite (h : Fetched d path now d') (content : Bytes) :
    Fetched d path now (d'.overwrite (tempPathFor path) content modified) :=
  ⟨h.toPrepared.trans (sameOutside_overwrite rfl)
    (isSymlink_overwrite (tempPathFor_ne_nil _)), h.fresh,
    ⟨content, read?_overwrite d' content modified (tempPathFor_ne_nil _)⟩,
    (isDir_parent_of_sameOutside (sameOutside_overwrite rfl)).trans h.parent⟩

namespace PullEnv

theorem prepared_cleanupTemp (h : Prepared d path now d') :
    Prepared d path now (env.cleanupTemp d' (tempPathFor path)) := by
  unfold cleanupTemp
  split
  · split
    next d1 h1 =>
      have h1 := (orFault_eq_ok.mp h1).2
      refine h.trans (sameOutside_removeFile h1 rfl) fun _ => ?_
      unfold removeFile at h1
      split at h1 <;> cases h1
      simp [isSymlink, nodeAt, tempPathFor_ne_nil]
    · exact h
  · exact h

variable {r : Downloaded}

/-- How a download ends: without a file to install, or by installing the record or the one with the
merged content. -/
inductive Ends (env : PullEnv) (st : FolderState) (info : FileInfo) : Downloaded → Prop where
  | untouched (e : SyncError) : Ends env st info ⟨.error e, st, false⟩
  | prepared (e : SyncError) (d : Disk)
    (hp : Prepared st.disk (namePath info.name) env.clock.now d) :
    Ends env st info ⟨.error e, ⟨st.db, d⟩, false⟩
  | install (d : Disk) (recorded : FileInfo) (merged : Bool) {x : TaskResult × FolderState}
    (hp : Fetched st.disk (namePath info.name) env.clock.now d)
    (hx : env.install ⟨st.db, env.archiveExisting d (namePath info.name)⟩ info recorded = x)
    (hrec : merged = false → recorded = info) (hname : recorded.name = info.name)
    (hversion : recorded.version = info.version) (hsequence : recorded.sequence = info.sequence) :
    Ends env st info ⟨x.1, x.2, merged⟩

theorem finishDownload_spec {d : Disk} (h : env.finishDownload ⟨st.db, d⟩ info = some r)
    (hp : Fetched st.disk (namePath info.name) env.clock.now d) : ∃ d' recorded,
      Fetched st.disk (namePath info.name) env.clock.now d' ∧
      env.install ⟨st.db, env.archiveExisting d' (namePath info.name)⟩ info recorded =
        (r.result, r.state) ∧ (r.merged = false → recorded = info) ∧
      recorded.name = info.name ∧ recorded.version = info.version ∧
      recorded.sequence = info.sequence := by
  unfold finishDownload at h
  simp only at h
  split at h
  · cases h
    exact ⟨d, info, hp, rfl, fun _ => rfl, rfl, rfl, rfl⟩
  · obtain ⟨merged, -, h⟩ := Option.bind_eq_some_iff.mp h
    cases h
    unfold writeMerged
    split
    · exact ⟨d, _, hp, rfl, nofun, rfl, rfl, rfl⟩
    next d1 h1 =>
      exact ⟨d1, _, hp.write (orFault_eq_ok.mp h1).2, rfl, nofun, rfl, rfl, rfl⟩

theorem ends_copyFromLocal {source : List String} : Ends env st info
    ⟨(env.copyFromLocal st info source).1, (env.copyFromLocal st info source).2, false⟩ := by
  unfold copyFromLocal
  simp only
  split
  · exact .untouched _
  next d1 h1 =>
    have hp := Prepared.of_createDirAll (orFault_eq_ok.mp h1).2
    split
    · exact .prepared _ _ hp
    next d2 h2 =>
      have h2 := (orFault_eq_ok.mp h2).2
      have hp2 : Fetched st.disk (namePath info.name) env.clock.now d2 := by
        unfold copy at h2
        split at h2
        · cases h2
        · exact .of_write (orFault_eq_ok.mp h1).2 h2
      exact .install d2 info false hp2 rfl (fun _ => rfl) rfl rfl rfl

theorem ends_downloadBlocks (h : env.downloadBlocks st info = some r) : Ends env st info r := by
  unfold downloadBlocks at h
  simp only at h
  split at h
  · cases h
    exact .untouched _
  next d1 h1 =>
    have hp := Prepared.of_createDirAll (orFault_eq_ok.mp h1).2
    split at h
    · cases h
      exact .prepared _ _ hp
    next d2 h2 =>
      have hp3 : ∀ written, Fetched st.disk (namePath info.name) env.clock.now
          (d2.overwrite (tempPathFor (namePath info.name)) written env.clock.now) :=
        (Fetched.of_write (orFault_eq_ok.mp h1).2 (orFault_eq_ok.mp h2).2).overwrite
      split at h
      · cases h
        exact .prepared _ _ (prepared_cleanupTemp (hp3 _).toPrepared)
      · split at h
        · cases h
          exact .prepared _ _ (prepared_cleanupTemp (hp3 _).toPrepared)
        · cases h
          exact .prepared _ _ (prepared_cleanupTemp (hp3 _).toPrepared)
        · obtain ⟨d, recorded, hp, hx, hfacts⟩ := finishDownload_spec h (hp3 _)
          exact .install d recorded r.merged hp hx hfacts.1 hfacts.2.1 hfacts.2.2.1 hfacts.2.2.2

theorem ends_downloadFile (h : env.downloadFile st info = some r) : Ends env st info r := by
  unfold downloadFile at h
  split at h
  · cases h
    exact .untouched _
  · split at h
    · cases h
      exact .untouched _
    next source hsource =>
      obtain rfl : r = ⟨(env.copyFromLocal st info source).1,
        (env.copyFromLocal st info source).2, false⟩ := (Option.some.inj h).symm
      exact ends_copyFromLocal
    · exact ends_downloadBlocks h

theorem downloads (h : env.downloadFile st info = some r) :
    Downloads env st info r := by
  cases ends_downloadFile h with
  | untouched e => exact .untouched e
  | prepared e d hp => exact .prepared e d hp
  | install d recorded merged hp hx hrec hname hversion =>
    exact .installed d recorded _ _ merged hp hrec hname hversion (installed_of_eq hx)

/-- A download ends with an error and records nothing, or as the installation of the record, or of
the one with the merged content. -/
def Installs (env : PullEnv) (st : FolderState) (info : FileInfo) (result : TaskResult)
    (state : FolderState) : Prop :=
  (∃ e, result = .error e) ∧ state.db = st.db ∨
    ∃ st' recorded, env.install st' info recorded = (result, state) ∧ st'.db = st.db ∧
      recorded.name = info.name ∧ recorded.version = info.version ∧
      recorded.sequence = info.sequence

theorem downloadFile_installs (h : env.downloadFile st info = some r) :
    env.Installs st info r.result r.state := by
  cases ends_downloadFile h with
  | untouched e | prepared e => exact .inl ⟨⟨e, rfl⟩, rfl⟩
  | install d recorded merged _ hx _ hname hversion hsequence =>
    exact .inr ⟨_, recorded, hx, rfl, hname, hversion, hsequence⟩

theorem recordDeletion_spec : (env.recordDeletion st info).1 ≠ .panicked ∧
    (env.recordDeletion st info).2.disk = st.disk ∧ ((env.recordDeletion st info).2.db = st.db ∨
      (env.recordDeletion st info).2.db = st.db.upsert info) := by
  unfold recordDeletion
  split <;> simp

/-- A deletion moves the file into the trash or leaves the disk as it is. -/
theorem deleteFile_spec : (env.deleteFile st info).1 ≠ .panicked ∧
    ((env.deleteFile st info).2.disk = st.disk ∨
      (env.deleteFile st info).2.disk = (env.moveToTrash st.disk info.name).2) ∧
    ((env.deleteFile st info).2.db = st.db ∨
      (env.deleteFile st info).2.db = st.db.upsert info) := by
  unfold deleteFile
  split
  · simp
  · split
    · split
      next h => simp [h]
      next disk h =>
        obtain ⟨hresult, hdisk, hdb⟩ := @recordDeletion_spec env { st with disk } info
        exact ⟨hresult, .inr (by rw [h, hdisk]), hdb⟩
    · obtain ⟨hresult, hdisk, hdb⟩ := @recordDeletion_spec env st info
      exact ⟨hresult, .inl hdisk, hdb⟩

theorem createDirectory_spec : (env.createDirectory st info).1 ≠ .panicked ∧
    (env.createDirectory st info).2.db = st.db ∧ ((env.createDirectory st info).2.disk = st.disk ∨
      st.disk.createDirAll (namePath info.name) env.clock.now =
        .ok (env.createDirectory st info).2.disk) := by
  unfold createDirectory
  simp only
  split
  · simp
  · split
    · split <;> simp
    · split
      · simp
      next h => simp [(orFault_eq_ok.mp h).2]

end PullEnv

end Syncthing
