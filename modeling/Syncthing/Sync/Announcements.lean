import Syncthing.Sync.StoredRecords
import Syncthing.Sync.WatcherScans

/-! Scans and the override of local changes publish the records they have found changed. A scan
looks at a name more than once: in the walks of directories that contain it, at the path itself, and
in the checks for vanished files. What it announces about a name is decided by these looks alone.

The database is taken as a map: a name has the record that was last stored for it, and the records
of an operation are stored in the order in which they are announced. `DatabaseRefinement` says when
the database of the daemon is one. -/
namespace Syncthing

open Program ScanEnv List KeyedList Disk FolderModel

/-- An operation on a folder that publishes `LocalIndexUpdated`. -/
inductive LocalOp where
  | scan (sub : Option String)
  | scanIncremental (changes deletes : List String)
  | overrideLocalChanges

/-- A change of a receive-only folder, made the newest version. -/
def overridden (localCounterId : UInt64) (file : FileInfo) : FileInfo :=
  { file with version := file.version.increment localCounterId }

namespace FolderModel

variable (m : FolderModel) (env : ScanEnv)

/-- The files of the event are the files a scan returns. -/
def scanInner (sub : Option String) : ScanM (List FileInfo) :=
  if m.paused then pure [] else env.scanFolderAt m.folder.disk sub

/-- The files published by the scan that it begins with. -/
def overrideLocalChanges : ScanM (List FileInfo) := do
  if m.folderType ≠ .receiveOnly then
    throw (.scan env.folderId "override only applies to ReceiveOnly folders")
  let changed ← m.scanInner env none
  let updated := changed.map (overridden env.localCounterId)
  mapError (fun e => .scan env.folderId ("db update failed: " ++ e.message))
    (updated.forM env.updateFile)
  return changed

/-- The operation, up to the files it publishes. -/
def announce : LocalOp → ScanM (List FileInfo)
  | .scan sub => m.scanInner env sub
  | .scanIncremental changes deletes =>
    env.scanIncremental m.folder.disk m.pullInFlight changes deletes
  | .overrideLocalChanges => m.overrideLocalChanges env

end FolderModel

/-- Every name is announced once at most, and a changed record is the announced one. -/
structure AnnouncedAs (db db' : FolderFiles) (files : List FileInfo) : Prop where
  once : (files.map (·.name)).Nodup
  recorded : ∀ name, db'.find? name ≠ db.find? name → ∃ r a, db'.find? name = some r ∧
    a ∈ files ∧ a.name = name ∧ r.version = a.version ∧ r.sequence = a.sequence

/-- What a scan compares with: the block hashes of a record, and whether it is a deletion. -/
abbrev KnownContent := Option (List Bytes × Bool)

def knownOf (db : FolderFiles) (name : String) : KnownContent :=
  (db.find? name).map fun r => (r.blockHashes, r.isDeleted)

/-- One look of a scan at a name. -/
inductive Look where
  /-- A walk lists entries of that name, and their records are stored at its end. -/
  | listed (entries : List (List Bytes))
  /-- The file itself is read. -/
  | opened (hashes : List Bytes)
  /-- The name is checked for having vanished, and it has. -/
  | missing

def differs (known : KnownContent) (hashes : List Bytes) : Bool := known.map (·.1) ≠ some hashes

namespace Look

/-- How often a look reports the name. -/
def reports (known : KnownContent) : Look → Nat
  | listed entries => (entries.filter (differs known)).length
  | opened hashes => if differs known hashes then 1 else 0
  | missing => if known.map (·.2) = some false then 1 else 0

/-- What the next look compares with. -/
def next (known : KnownContent) : Look → KnownContent
  | listed entries =>
    match (entries.filter (differs known)).getLast? with
    | some hashes => some (hashes, false)
    | none => known
  | opened _ | missing => known

end Look

def timesReported : KnownContent → List Look → Nat
  | _, [] => 0
  | known, look :: looks => look.reports known + timesReported (look.next known) looks

def lastKnown : KnownContent → List Look → KnownContent
  | known, [] => known
  | known, look :: looks => lastKnown (look.next known) looks

namespace ScanEnv

variable (env : ScanEnv) (d : Disk)

/-- The entries of a name that a walk finds. -/
def entriesOf (sub : Option String) (name : String) : List (List Bytes) :=
  (((env.listing d sub).toOption.getD []).filter (·.name = name)).map (·.blockHashes)

variable (sub name : String)

/-- The entries of a name that a sub-scan finds. -/
def walkEntries : List (List Bytes) :=
  if isDefaultIgnoredPath sub || !d.isDir (namePath sub) ||
    isIgnoredWithAncestors env.matcher sub true then []
  else env.entriesOf d (some sub) name

/-- The looks of a sub-scan. -/
def walkLooks : List Look := [.listed (env.walkEntries d sub name)]

/-- The looks of `mark_deleted_subtree`. -/
def subtreeLooks (relativePrefix name : String) : List Look :=
  let slashed :=
    if Text.endsWith relativePrefix "/" then relativePrefix else relativePrefix ++ "/"
  if !isDefaultIgnoredPath relativePrefix &&
    (name = relativePrefix || Text.startsWith name slashed) && !d.pathExists (namePath name) then
    [.missing]
  else []

/-- The looks of `scan_changed_file`. -/
def fileLooks (relative : String) (content : Bytes) (name : String) : List Look :=
  if name = relative && !isDefaultIgnoredPath relative &&
    !isIgnoredWithAncestors env.matcher relative false then
    [.opened ((contentBlocks env.sha256 content).map (·.hash))]
  else []

def changeLooks (pullInFlight : Bool) (name relative : String) : List Look :=
  match d.nodeAt (namePath relative) with
  | none | some (.symlink _ _ .dangling) => []
  | some (.dir ..) | some (.symlink _ _ .dir) =>
    env.walkLooks d relative name ++ if pullInFlight then [] else subtreeLooks d relative name
  | some (.file content _) | some (.symlink _ _ (.file content)) =>
    env.fileLooks relative content name

def deleteLooks (name relative : String) : List Look :=
  if d.pathExists (namePath relative) then [] else subtreeLooks d relative name

/-- The looks of a full scan: at the records first, then at the disk. -/
def fullLooks (name : String) : List Look :=
  (if !d.pathExists (namePath name) && !d.pathExists (tempPathFor (namePath name)) then [.missing]
    else []) ++ [.listed (env.entriesOf d none name)]

end ScanEnv

namespace LocalOp

variable (m : FolderModel) (env : ScanEnv)

/-- The looks of an operation at a name, in order. -/
def looks (name : String) : LocalOp → List Look
  | scan none | overrideLocalChanges => if m.paused then [] else env.fullLooks m.folder.disk name
  | scan (some sub) => if m.paused then [] else env.walkLooks m.folder.disk sub name
  | scanIncremental changes deletes =>
    changes.flatMap (env.changeLooks m.folder.disk m.pullInFlight name) ++
      deletes.flatMap (deleteLooks m.folder.disk name)

/-- No look finds a name changed that another one has found changed. An override must find no
change at all, for it changes what it has published. -/
def Agrees (op : LocalOp) : Prop := ∀ name, match op with
    | overrideLocalChanges => m.folderType = .receiveOnly →
        timesReported (knownOf m.folder.db name) (op.looks m env name) = 0
    | _ => timesReported (knownOf m.folder.db name) (op.looks m env name) ≤ 1

end LocalOp

variable {m : FolderModel} {env : ScanEnv} {d : Disk} {s t : ScanState} {name : String}
  {file r : FileInfo} {looks looks' : String → List Look} {x y : ScanM (List FileInfo)}
  {db : FolderFiles}

theorem timesReported_append (known : KnownContent) (looks looks' : List Look) :
    timesReported known (looks ++ looks') =
      timesReported known looks + timesReported (lastKnown known looks) looks' := by
  induction looks generalizing known with
  | nil => simp [timesReported, lastKnown]
  | cons look looks ih => simp [timesReported, lastKnown, ih, Nat.add_assoc]

theorem lastKnown_append (known : KnownContent) (looks looks' : List Look) :
    lastKnown known (looks ++ looks') = lastKnown (lastKnown known looks) looks' := by
  induction looks generalizing known with
  | nil => rfl
  | cons look looks ih => exact ih _

/-- A part of a scan that takes these looks. It does not fail. -/
def TakesLooks (x : ScanM (List FileInfo)) (looks : String → List Look) : Prop :=
  ∀ s, Ends x (fun out t => ∀ name,
    (out.map (·.name)).count name = timesReported (knownOf s.db name) (looks name) ∧
    knownOf t.db name = lastKnown (knownOf s.db name) (looks name) ∧
    (t.db.find? name ≠ s.db.find? name → name ∈ out.map (·.name))) (fun _ => False) s

namespace TakesLooks

theorem nothing : TakesLooks (pure []) fun _ => [] := by
  intro s
  simp [timesReported, lastKnown]

theorem append (hx : TakesLooks x looks) (hy : TakesLooks y looks') :
    TakesLooks (do return (← x) ++ (← y)) fun name => looks name ++ looks' name := by
  intro s
  simp only [ends_bind, ends_pure]
  refine (hx s).imp (fun out t ht => ?_) fun _ => id
  refine (hy t).imp (fun out' u hu name => ?_) fun _ => id
  obtain ⟨hcount, hknown, hmem⟩ := ht name
  obtain ⟨hcount', hknown', hmem'⟩ := hu name
  rw [map_append, count_append, timesReported_append, lastKnown_append, hcount, hcount',
    hknown', hknown]
  refine ⟨rfl, rfl, fun hne => List.mem_append.mpr ?_⟩
  by_cases htu : u.db.find? name = t.db.find? name
  · exact .inl (hmem (htu ▸ hne))
  · exact .inr (hmem' htu)

theorem concat {f : String → ScanM (List FileInfo)} {looks : String → String → List Look}
    (h : ∀ a, TakesLooks (f a) fun name => looks name a) (as : List String) :
    TakesLooks (Program.concat f as) fun name => as.flatMap (looks name) := by
  induction as with
  | nil => exact nothing
  | cons a as ih =>
    have hcons := (h a).append ih
    simpa only [flatMap_cons, Program.concat] using hcons

theorem logged (h : TakesLooks x looks) : TakesLooks (logged x) looks := by
  intro s
  rw [ends_logged]
  exact (h s).imp (fun _ _ => id) fun _ => False.elim

end TakesLooks
open TakesLooks (concat nothing)

/-! ### What is found -/

theorem differs_iff {hashes : List Bytes} :
    differs (knownOf db name) hashes = true ↔ ¬ Recorded db name hashes := by
  unfold differs knownOf Recorded
  cases db.find? name with
  | none => simp
  | some old => simp

/-- What a scanned entry and the record of it have in common. -/
def gist (f : FileInfo) : String × List Bytes × Bool := (f.name, f.blockHashes, f.isDeleted)

theorem gist_of_compared (h : Compared env db file r) : gist r = gist file := by
  obtain ⟨version, sequence, base, rfl⟩ := h.eq_with
  rfl

/-- What a walk has found: of each name the entries that are not recorded so. -/
structure Found (db : FolderFiles) (entries : String → List (List Bytes)) (out : List FileInfo) :
    Prop where
  hashes : ∀ name, (out.filter (·.name = name)).map (·.blockHashes) =
    (entries name).filter (differs (knownOf db name))
  live : ∀ x ∈ out, x.isDeleted = false

theorem count_names (out : List FileInfo) (name : String) :
    (out.map (·.name)).count name = (out.filter (·.name = name)).length := by
  induction out with
  | nil => rfl
  | cons x out ih =>
    by_cases hname : x.name = name <;> simp [hname, ih]

namespace Found

variable {db : FolderFiles} {entries : String → List (List Bytes)} {out : List FileInfo}

theorem count (h : Found db entries out) (name : String) :
    (out.map (·.name)).count name = ((entries name).filter (differs (knownOf db name))).length := by
  rw [count_names, ← h.hashes, length_map]

theorem known (h : Found db entries out) (name : String) :
    knownOf (db.upsertAll out) name = (Look.listed (entries name)).next (knownOf db name) := by
  have hlast : (out.reverse.find? fun x => x.name = name) =
      (out.filter (·.name = name)).getLast? := by
    rw [← head?_filter, filter_reverse, head?_reverse]
  rw [Look.next, ← h.hashes, getLast?_map, knownOf, find?_upsertAll, hlast]
  cases hx : (out.filter (·.name = name)).getLast? with
  | none => rfl
  | some x =>
    have hmem := (List.mem_filter.mp (mem_of_getLast? hx)).1
    simp [h.live x hmem]

theorem of_map_gist {files : List FileInfo} (hlive : ∀ file ∈ files, file.isDeleted = false)
    (h : out.map gist =
      (files.filter fun f => differs (knownOf db f.name) f.blockHashes).map gist) :
    Found db (fun name => (files.filter (·.name = name)).map (·.blockHashes)) out where
  hashes := by
    intro name
    have hname := congrArg (fun l => (l.filter (·.1 = name)).map (·.2.1)) h
    simp only [filter_map, map_map, Function.comp_def, gist, filter_filter] at hname ⊢
    refine hname.trans (congrArg _ ?_)
    refine filter_congr fun f _ => ?_
    by_cases hf : f.name = name <;> simp [hf]
  live := by
    intro x hx
    have hgist : gist x ∈ out.map gist := mem_map_of_mem hx
    rw [h, mem_map] at hgist
    obtain ⟨file, hfile, hsame⟩ := hgist
    have hdeleted : file.isDeleted = x.isDeleted := congrArg (·.2.2) hsame
    rw [← hdeleted]
    exact hlive file (List.mem_filter.mp hfile).1

end Found

namespace ScanEnv

theorem walkEntries_of_listing {files : List FileInfo}
    (hmetadata : isDefaultIgnoredPath sub = false) (hdir : d.isDir (namePath sub) = true)
    (hignored : isIgnoredWithAncestors env.matcher sub true = false)
    (h : env.listing d (some sub) = .ok files) (name : String) :
    env.walkEntries d sub name = (files.filter (·.name = name)).map (·.blockHashes) := by
  simp [walkEntries, entriesOf, hmetadata, hdir, hignored, h, Except.toOption]

theorem isDir_of_checkRoot {root : List String} (h : env.checkRoot d root = .ok ⟨⟩) :
    d.isDir root = true := by
  unfold checkRoot at h
  simp only at h
  split at h
  · cases h
  · split at h
    · cases h
    next hdir => simpa using hdir

theorem not_isDir_of_checkRoot {root : List String} {e : SyncError}
    (h : env.checkRoot d root = .error e) : d.isDir root = false := by
  unfold checkRoot pathExists at h
  unfold isDir
  split
  next hnode => simp [hnode, isDir] at h
  next hnode => simp [hnode, isDir] at h
  · rfl

theorem mem_names_of_stored
    (h : (db.upsertAll out).find? name ≠ db.find? name) : name ∈ out.map (·.name) := by
  by_contra hnot
  refine h (find?_upsertAll_of_notMem fun a ha hname => hnot ?_)
  exact hname ▸ mem_map_of_mem ha

theorem lastKnown_missing {known : KnownContent} {p : Prop} [Decidable p] :
    lastKnown known (if p then [.missing] else []) = known := by
  split <;> rfl

/-- A search of the records that reports the live ones of the names in `p`. -/
theorem ends_collect_missing {f : FileInfo → ScanM (Option FileInfo)} {p : String → Bool}
    (h : ∀ old t, t.db = s.db → Ends (f old)
      (fun b u => u.db = s.db ∧ if !old.isDeleted && p old.name then
        ∃ x, b = some x ∧ x.name = old.name else b = none) (fun _ => False) t) :
    Ends (collect f s.db.entries) (fun out t => t.db = s.db ∧ ∀ name,
        (out.map (·.name)).count name =
          timesReported (knownOf s.db name) (if p name then [.missing] else []))
      (fun _ => False) s := by
  refine (ends_collect_filter (fun t : ScanState => t.db = s.db)
    (fun old => !old.isDeleted && p old.name) (·.name) (·.name) (fun old _ t ht => h old t ht)
    rfl).imp (fun out t ht => ⟨ht.1, fun name => ?_⟩) fun _ => id
  rw [ht.2, count_filter_keys s.db]
  unfold knownOf
  cases hfind : s.db.find? name with
  | none => by_cases hp : p name <;> simp [hp, timesReported, Look.reports]
  | some old =>
    have hname : old.name = name := (find?_eq_some_iff.mp hfind).2
    by_cases hp : p name <;> simp [hp, hname, timesReported, Look.reports]

section
variable (hcalm : ∀ step, env.fault step = none)
include hcalm

theorem ends_incrementSequence_calm
    {Q : UInt64 → ScanState → Prop} (hQ : ∀ sequence, Q sequence ⟨s.db, sequence⟩) :
    Ends (env.incrementSequence name) Q (fun _ => False) s :=
  ends_incrementSequence hQ fun h => not_fails_of_calm hcalm (h [])

theorem ends_compareFile_calm : Ends (env.compareFile file)
      (fun b t => t.db = s.db ∧ if differs (knownOf s.db file.name) file.blockHashes then
        ∃ x, b = some x ∧ gist x = gist file else b = none)
      (fun _ => False) s := by
  refine ends_compareFile.imp (fun b t h => ⟨h.1, ?_⟩) fun _ h => not_fails_of_calm hcalm (h.2 [])
  cases b with
  | none => rw [if_neg (fun hdiffers => differs_iff.mp hdiffers h.2)]
  | some x =>
    rw [if_pos (differs_iff.mpr (unrecorded_of_compared h.2).2.2)]
    exact ⟨x, rfl, gist_of_compared h.2⟩

theorem ends_collect_compareFile_calm
    {files : List FileInfo} (hlive : ∀ file ∈ files, file.isDeleted = false) :
    Ends (collect env.compareFile files)
      (fun out t => t.db = s.db ∧
        Found s.db (fun name => (files.filter (·.name = name)).map (·.blockHashes)) out)
      (fun _ => False) s := by
  refine (ends_collect_filter (fun t : ScanState => t.db = s.db)
    (fun f => differs (knownOf s.db f.name) f.blockHashes) gist gist (fun file _ t ht => ?_) rfl).imp
    (fun out t h => ⟨h.1, .of_map_gist hlive h.2⟩) fun _ => id
  have h := @ends_compareFile_calm env t file hcalm
  rwa [ht] at h

/-- What a sub-scan finds. It fails if there is no directory. -/
theorem ends_findChanges_sub :
    Ends (env.findChanges d (some sub))
      (fun out t => t.db = s.db ∧ Found s.db (env.walkEntries d sub) out)
      (fun t => t.db = s.db ∧ d.isDir (namePath sub) = false) s := by
  have hnothing :
      isDefaultIgnoredPath sub = true ∨ isIgnoredWithAncestors env.matcher sub true = true →
      Found s.db (env.walkEntries d sub) [] := by
    intro h
    refine ⟨fun name => ?_, by simp⟩
    rcases h with h | h <;> simp [walkEntries, h]
  unfold findChanges scanDeletions
  simp only [ends_ite, ends_bind, ends_pure, ends_require, Option.any_some, Option.map_some,
    Option.getD_some, nil_append]
  refine ⟨fun hmetadata => ⟨trivial, hnothing (.inl hmetadata)⟩, fun hmetadata =>
    ⟨fun _ hroot => ⟨fun hignored => ⟨trivial, hnothing (.inr hignored)⟩, fun hignored =>
      ⟨fun files hfiles => ?_, fun _ herror => ?_⟩⟩,
      fun _ herror => ⟨trivial, not_isDir_of_checkRoot herror⟩⟩⟩
  · rw [Bool.not_eq_true] at hmetadata hignored
    refine (ends_collect_compareFile_calm hcalm (live_of_scanDirectory hfiles)).imp
      (fun out t h => ⟨h.1, ?_⟩) fun _ => False.elim
    have horder : orderChanged (some sub) out = out := by
      refine (map_congr_left fun x hx => ?_).trans (map_id out)
      exact clearDeletedBlocks_of_live (h.2.live x hx)
    have hentries : env.walkEntries d sub =
        fun name => (files.filter (·.name = name)).map (·.blockHashes) :=
      funext (walkEntries_of_listing hmetadata (isDir_of_checkRoot hroot) hignored hfiles)
    rw [horder, hentries]
    exact h.2
  · exact (not_fails_of_calm hcalm (fails_of_scanDirectory herror)).elim

theorem ends_storing_calm
    {Q : List FileInfo → ScanState → Prop} {E : ScanState → Prop} (h : Ends x Q E s) :
    Ends (env.storing x) (fun out t => ∃ u, Q out u ∧ t.db = u.db.upsertAll out) E s := by
  unfold storing
  simp only [ends_bind, ends_pure]
  refine h.imp (fun out u hu => ?_) fun _ => id
  exact ends_forM_updateFile.imp (fun _ t ht => ⟨u, hu, ht⟩)
    fun _ h => (not_fails_of_calm hcalm (h.1 [])).elim

theorem takesLooks_subScan
    (hdir : d.isDir (namePath sub) = true) :
    TakesLooks (env.scanFolderAt d (some sub)) (env.walkLooks d sub) := by
  intro s
  rw [scanFolderAt_eq]
  refine (ends_storing_calm hcalm (ends_findChanges_sub hcalm)).imp (fun out t h => ?_) fun t h => ?_
  · obtain ⟨u, ⟨hudb, hfound⟩, htdb⟩ := h
    rw [htdb, hudb]
    intro name
    refine ⟨?_, hfound.known name, mem_names_of_stored⟩
    simpa [walkLooks, timesReported, Look.reports] using hfound.count name
  · rw [hdir] at h
    cases h.2

theorem takesLooks_markDeletedSubtree
    {relativePrefix : String} :
    TakesLooks (env.markDeletedSubtree d relativePrefix) (subtreeLooks d relativePrefix) := by
  intro s
  unfold markDeletedSubtree getFolderFiles
  simp only [ends_ite, ends_bind, ends_require, ends_get, ends_pure]
  refine ⟨fun hmetadata name => ?_, fun hmetadata => ⟨fun _ _ => ?_, fun _ herror => ?_⟩⟩
  · simp [subtreeLooks, hmetadata, timesReported, lastKnown]
  · rw [Bool.not_eq_true] at hmetadata
    let slashed :=
      if Text.endsWith relativePrefix "/" then relativePrefix else relativePrefix ++ "/"
    refine (@ends_collect_missing s _ (fun name => (name = relativePrefix ||
      Text.startsWith name slashed) && !d.pathExists (namePath name)) fun old t ht => ?_).imp
      (fun out t h name => ?_) fun _ => id
    · unfold markVanished
      simp only [ends_ite, ends_bind, ends_pure]
      refine ⟨fun hdeleted => ⟨ht, by simp [hdeleted]⟩, fun hlive => ⟨fun hcovers =>
        ⟨fun hexists => ⟨ht, by simp [hexists]⟩, fun hgone => ?_⟩,
        fun hnot => ⟨ht, ?_⟩⟩⟩
      · refine ends_incrementSequence_calm hcalm fun sequence => ⟨ht, ?_⟩
        rw [if_pos (by simp_all [slashed])]
        exact ⟨_, rfl, by simp [deletedInfo]⟩
      · simp_all [slashed]
    · obtain ⟨htdb, hcount⟩ := h
      rw [htdb, hcount]
      simp only [subtreeLooks, hmetadata, Bool.not_false, Bool.true_and]
      exact ⟨rfl, lastKnown_missing.symm, fun hne => (hne rfl).elim⟩
  · exact (fault_of_check herror (hcalm _)).elim

theorem takesLooks_scanDirtyDelete (d : Disk)
    (relative : String) :
    TakesLooks (env.scanDirtyDelete d relative) fun name => deleteLooks d name relative := by
  unfold scanDirtyDelete
  by_cases hexists : d.pathExists (namePath relative) = true
  · simp only [hexists, if_true, deleteLooks]
    exact nothing
  · simp only [hexists, Bool.false_eq_true, if_false, deleteLooks]
    exact (takesLooks_markDeletedSubtree hcalm).logged

theorem takesLooks_scanChangedFile {relative : String}
    {content : Bytes} (hread : d.read? (namePath relative) = some content) :
    TakesLooks (do return (← env.scanChangedFile d relative).toList)
      (env.fileLooks relative content) := by
  intro s
  rcases scanChangedFile_of_read env hread with ⟨hscan, hskip⟩ | ⟨hmetadata, hignored, modified, hscan⟩
  · have hlooks : ∀ name, env.fileLooks relative content name = [] := by
      intro name
      rcases hskip with hskip | hskip <;> simp [fileLooks, hskip]
    simp only [hscan, pure_bind, ends_pure]
    intro name
    simp [hlooks, timesReported, lastKnown]
  · rw [hscan]
    simp only [ends_bind, ends_require, ends_pure]
    refine ⟨fun file hfile => ?_, fun _ herror =>
      not_fails_of_calm hcalm (fails_of_scanFile nil_prefix herror)⟩
    obtain rfl := scanFile_ok hfile
    refine (ends_compareFile_calm hcalm).imp (fun out t h name => ?_) fun _ => id
    obtain ⟨htdb, hout⟩ := h
    have hgist : out.toList.map gist =
        ([contentInfo env.sha256 relative content modified].filter fun f =>
          differs (knownOf s.db f.name) f.blockHashes).map gist := by
      split at hout
      next hdiffers =>
        obtain ⟨x, rfl, hx⟩ := hout
        simp [hdiffers, hx]
      next hsame => simp [hsame, hout]
    have hcount := (Found.of_map_gist (by simp [contentInfo, scannedInfo, FileInfo.isDeleted])
      hgist).count name
    rw [htdb, hcount]
    refine ⟨?_, ?_, fun hne => (hne rfl).elim⟩
    · by_cases hname : name = relative
      · subst hname
        have hfile : (contentInfo env.sha256 name content modified).name = name := rfl
        have hhashes : (contentInfo env.sha256 name content modified).blockHashes =
          (contentBlocks env.sha256 content).map (·.hash) := rfl
        simp only [fileLooks, hmetadata, hignored, hfile, hhashes, timesReported, Look.reports,
          filter_cons, filter_nil, decide_true, if_true, Bool.not_false, Bool.and_true,
          map_cons, map_nil, Nat.add_zero]
        split <;> rfl
      · have hfile : (contentInfo env.sha256 relative content modified).name ≠ name := Ne.symm hname
        simp [fileLooks, hname, hfile, timesReported]
    · unfold fileLooks
      split <;> rfl

theorem takesLooks_scanDirtyChange (d : Disk)
    (pullInFlight : Bool) (relative : String) :
    TakesLooks (env.scanDirtyChange d pullInFlight relative)
      fun name => env.changeLooks d pullInFlight name relative := by
  have hdir : d.isDir (namePath relative) = true → TakesLooks (do
      let files ← logged (env.scanFolderAt d (some relative))
      if pullInFlight then return files
      let deleted ← logged (env.markDeletedSubtree d relative)
      return files ++ deleted)
      fun name => env.walkLooks d relative name ++
        if pullInFlight then [] else subtreeLooks d relative name := by
    intro hdir
    have hwalk := (takesLooks_subScan hcalm hdir).logged
    cases pullInFlight with
    | true => simpa using hwalk
    | false => simpa using hwalk.append (takesLooks_markDeletedSubtree hcalm).logged
  unfold scanDirtyChange
  split
  all_goals
    rename_i hnode
    simp only [changeLooks, hnode]
  · exact nothing
  · exact nothing
  · exact hdir (by rw [isDir, hnode])
  · exact hdir (by rw [isDir, hnode])
  · exact (takesLooks_scanChangedFile hcalm (by rw [read?, hnode])).logged
  · exact (takesLooks_scanChangedFile hcalm (by rw [read?, hnode])).logged

end

/-- A search that comes to these looks, and reports whatever it has stored already. -/
def Searches (x : ScanM (List FileInfo)) (looks : String → List Look) : Prop :=
  ∀ s, Ends x (fun out t => ∀ name,
    (out.map (·.name)).count name = timesReported (knownOf s.db name) (looks name) ∧
    (t.db.find? name ≠ s.db.find? name → name ∈ out.map (·.name))) (fun _ => False) s

theorem count_names_reordered (changed : List FileInfo) (name : String) :
    (((detectAndReorderRenames changed).map clearDeletedBlocks).map (·.name)).count name =
      (changed.map (·.name)).count name := by
  rw [map_map]
  simp only [Function.comp_def, name_clearDeletedBlocks]
  exact (detectAndReorderRenames_perm.map _).count_eq name

theorem searches_findDirty (hcalm : ∀ step, env.fault step = none) {pullInFlight : Bool}
    {changes deletes : List String} :
    Searches (env.findDirty d pullInFlight changes deletes) fun name =>
      changes.flatMap (env.changeLooks d pullInFlight name) ++
        deletes.flatMap (deleteLooks d name) := by
  intro s
  have hchanges := concat (takesLooks_scanDirtyChange hcalm d pullInFlight) changes
  have hdeletes := concat (takesLooks_scanDirtyDelete hcalm d) deletes
  have hlooks := hchanges.append hdeletes s
  unfold findDirty
  simp only [ends_bind, ends_pure] at hlooks ⊢
  refine hlooks.imp (fun changed t ht => ht.imp (fun deleted u hu name => ?_) fun _ => id)
    fun _ => id
  obtain ⟨hcount, -, hmem⟩ := hu name
  refine ⟨(count_names_reordered _ name).trans hcount, fun hne => ?_⟩
  have hmem' := List.count_pos_iff.mpr (hmem hne)
  rw [← count_names_reordered] at hmem'
  exact List.count_pos_iff.mp hmem'

theorem searches_findChanges_none (hcalm : ∀ step, env.fault step = none) :
    Searches (env.findChanges d none) (env.fullLooks d) := by
  intro s
  unfold findChanges scanDeletions getFolderFiles
  simp only [ends_ite, ends_bind, ends_pure, ends_require, ends_get, Option.any_none,
    Bool.false_eq_true, false_imp_iff, true_and, not_false_eq_true, true_imp_iff]
  refine ⟨fun _ _ => ⟨fun files hfiles => ⟨fun _ _ => ?_, fun _ herror => ?_⟩,
    fun _ herror => not_fails_of_calm hcalm (fails_of_scanDirectory herror)⟩, fun _ herror => ?_⟩
  · refine (@ends_collect_missing s _ (fun name => !d.pathExists (namePath name) &&
      !d.pathExists (tempPathFor (namePath name))) fun old t ht => ?_).imp
      (fun deleted t h => ?_) fun _ => id
    · unfold scanDeleted
      simp only [ends_ite, ends_bind, ends_pure]
      refine ⟨fun hgone => ⟨fun htemp => ⟨ht, by simp [htemp]⟩, fun htemp => ?_⟩,
        fun hnot => ⟨ht, ?_⟩⟩
      · refine ends_incrementSequence_calm hcalm fun sequence => ⟨ht, ?_⟩
        rw [if_pos (by simp_all)]
        exact ⟨_, rfl, by simp [deletedInfo]⟩
      · rw [if_neg (fun hreported => hnot (by simp_all))]
        trivial
    · obtain ⟨htdb, hdeleted⟩ := h
      refine (ends_collect_compareFile_calm hcalm (live_of_scanDirectory hfiles)).imp
        (fun compared u h name => ?_) fun _ => id
      obtain ⟨hudb, hfound⟩ := h
      rw [htdb] at hudb hfound
      refine ⟨?_, fun hne => (hne (by rw [hudb])).elim⟩
      have hentries : env.entriesOf d none name =
          (files.filter (·.name = name)).map (·.blockHashes) := by
        have hlisting : env.listing d none = .ok files := hfiles
        simp [entriesOf, hlisting, Except.toOption]
      have hcompared : (compared.map (·.name)).count name = timesReported
          (knownOf s.db name) [.listed (env.entriesOf d none name)] := by
        rw [hfound.count name, hentries]
        rfl
      refine (count_names_reordered _ name).trans ?_
      rw [map_append, count_append, hdeleted, hcompared, fullLooks, timesReported_append,
        lastKnown_missing]
  · exact fault_of_check herror (hcalm _)
  · -- the folder itself is a directory
    cases herror

end ScanEnv

/-! ### What is stored is what is announced -/

theorem announcedAs_unchanged : AnnouncedAs db db [] :=
  ⟨nodup_nil, fun _ hne => (hne rfl).elim⟩

theorem announcedAs_stored_iff {mid : FolderFiles}
    (hmem : ∀ name, mid.find? name ≠ db.find? name → name ∈ out.map (·.name)) :
    AnnouncedAs db (mid.upsertAll out) out ↔ (out.map (·.name)).Nodup := by
  refine ⟨fun h => h.once, fun hnodup => ⟨hnodup, fun name hne => ?_⟩⟩
  have hname : name ∈ out.map (·.name) := by
    by_cases hstored : (mid.upsertAll out).find? name = mid.find? name
    · exact hmem name (hstored ▸ hne)
    · exact mem_names_of_stored hstored
  obtain ⟨a, ha, rfl⟩ := List.mem_map.mp hname
  exact ⟨a, a, find?_upsertAll_of_mem hnodup ha, ha, rfl, rfl, rfl⟩

theorem ScanEnv.Searches.announced (hcalm : ∀ step, env.fault step = none) (h : Searches x looks) :
    Ends (env.storing x) (fun out t => AnnouncedAs s.db t.db out ↔
      ∀ name, timesReported (knownOf s.db name) (looks name) ≤ 1) (fun _ => False) s := by
  refine (ends_storing_calm hcalm (h s)).imp (fun out t ht => ?_) fun _ => id
  obtain ⟨u, hu, htdb⟩ := ht
  rw [htdb, announcedAs_stored_iff fun name => (hu name).2, nodup_iff_count_le_one]
  exact forall_congr' fun name => by rw [(hu name).1]

/-- A sub-scan that finds no directory has announced nothing and changed nothing. -/
theorem ends_subScan_announced (hcalm : ∀ step, env.fault step = none) :
    Ends (env.scanFolderAt d (some sub))
      (fun out t => AnnouncedAs s.db t.db out ↔
        ∀ name, timesReported (knownOf s.db name) (env.walkLooks d sub name) ≤ 1)
      (fun t => AnnouncedAs s.db t.db [] ↔
        ∀ name, timesReported (knownOf s.db name) (env.walkLooks d sub name) ≤ 1) s := by
  rw [scanFolderAt_eq]
  refine (ends_storing_calm hcalm (ends_findChanges_sub hcalm)).imp (fun out t h => ?_) fun t h => ?_
  · obtain ⟨u, ⟨hudb, hfound⟩, htdb⟩ := h
    rw [htdb, hudb, announcedAs_stored_iff (fun name hne => (hne rfl).elim),
      nodup_iff_count_le_one]
    refine forall_congr' fun name => ?_
    simp [hfound.count name, walkLooks, timesReported, Look.reports]
  · rw [h.1]
    refine iff_of_true announcedAs_unchanged fun name => ?_
    simp [walkLooks, walkEntries, h.2, timesReported, Look.reports]

theorem increment_ne (v : Vector) (dev : UInt64) : v.increment dev ≠ v := by
  intro h
  have hget := congrArg (Vector.get · dev) h
  simp at hget

theorem increment_increment_ne (v : Vector) (dev : UInt64) :
    (v.increment dev).increment dev ≠ v := by
  intro h
  have hget := congrArg (Vector.get · dev) h
  simp [UInt64.add_assoc] at hget

/-- An override stores other versions than it has announced. -/
theorem announcedAs_overridden_iff {changed : List FileInfo}
    (hnext : ∀ r ∈ changed, NextOf env db r) : AnnouncedAs db ((db.upsertAll changed).upsertAll
      (changed.map (overridden env.localCounterId))) changed ↔ changed = [] := by
  constructor
  · intro h
    by_contra hne
    obtain ⟨a, ha⟩ := exists_mem_of_ne_nil changed hne
    have hnames : ((changed.map (overridden env.localCounterId)).map (·.name)).Nodup := by
      rw [map_map]
      exact h.once
    have hstored : ((db.upsertAll changed).upsertAll
        (changed.map (overridden env.localCounterId))).find? a.name =
        some (overridden env.localCounterId a) :=
      find?_upsertAll_of_mem hnames (mem_map_of_mem ha)
    have hold : some (overridden env.localCounterId a) ≠ db.find? a.name := by
      intro hsame
      have hversion := hnext a ha
      rw [NextOf, recordedVersion, ← hsame] at hversion
      exact increment_increment_ne _ _ hversion.symm
    obtain ⟨r, b, hr, hb, hname, hversion, -⟩ := h.recorded a.name (hstored ▸ hold)
    rw [hstored] at hr
    cases hr
    obtain rfl := inj_on_of_nodup_map h.once hb ha hname
    exact increment_ne _ _ hversion
  · rintro rfl
    exact announcedAs_unchanged

/-- The override: nothing may have changed. -/
theorem ends_overrideLocalChanges (hcalm : ∀ step, env.fault step = none)
    (htype : m.folderType = .receiveOnly) :
    Ends (m.overrideLocalChanges env) (fun out t => AnnouncedAs s.db t.db out ↔ ∀ name,
      timesReported (knownOf s.db name) (LocalOp.looks m env name .overrideLocalChanges) = 0)
      (fun _ => False) s := by
  unfold overrideLocalChanges scanInner
  by_cases hpaused : m.paused = true
  · simp only [htype, hpaused, ne_eq, not_true_eq_false, if_false, if_true, pure_bind, ends_bind,
      ends_mapError, ends_pure, map_nil]
    exact ends_forM_updateFile.imp (fun _ t ht => by
      rw [ht]
      simpa [LocalOp.looks, hpaused, timesReported] using announcedAs_unchanged)
      fun _ h => not_fails_of_calm hcalm (h.1 [])
  · simp only [htype, hpaused, ne_eq, not_true_eq_false, if_false, ends_bind,
      ends_mapError, ends_pure]
    have hscan := ends_storing_calm hcalm (@searches_findChanges_none env m.folder.disk hcalm s)
    rw [← scanFolderAt_eq] at hscan
    refine (hscan.and ends_scanFolderAt).imp (fun changed t ht => ?_) fun _ h => h.1
    obtain ⟨⟨u, hcount, -⟩, htdb, hchange⟩ := ht
    refine ends_forM_updateFile.imp (fun _ v hv => ?_)
      fun _ h => not_fails_of_calm hcalm (h.1 [])
    rw [hv, htdb, announcedAs_overridden_iff fun r hr => nextOf_of_scanChange (hchange r hr)]
    constructor
    · rintro rfl name
      simpa [LocalOp.looks, hpaused] using (hcount name).1.symm
    · intro hnone
      have hnames : changed.map (·.name) = [] := by
        refine List.eq_nil_iff_forall_not_mem.mpr fun name hname => ?_
        have hpos := List.count_pos_iff.mpr hname
        have hzero := hnone name
        simp only [LocalOp.looks, hpaused, Bool.false_eq_true, if_false] at hzero
        rw [(hcount name).1, hzero] at hpos
        exact absurd hpos (Nat.lt_irrefl 0)
      exact List.map_eq_nil_iff.mp hnames

/-- What an operation announces is what it leaves in the database if and only if no name is found
changed twice, and, for an override, nothing is found changed. -/
theorem announcements_match_iff (hcalm : ∀ step, env.fault step = none) (op : LocalOp) :
    Ends (m.announce env op) (fun files t => AnnouncedAs m.folder.db t.db files)
      (fun t => AnnouncedAs m.folder.db t.db []) m.scanState ↔ op.Agrees m env := by
  apply ends_iff_of
  cases op with
  | overrideLocalChanges =>
    by_cases htype : m.folderType = .receiveOnly
    · refine (ends_overrideLocalChanges hcalm htype).imp (fun files t h => ?_) fun _ => False.elim
      simp only [LocalOp.Agrees, htype, true_imp_iff]
      exact h
    · have hagrees : LocalOp.Agrees m env .overrideLocalChanges :=
        fun name htype' => absurd htype' htype
      change Ends (m.overrideLocalChanges env) _ _ _
      simp only [overrideLocalChanges, ne_eq, htype, not_false_eq_true, if_true,
        ends_bind, ends_throw]
      exact iff_of_true announcedAs_unchanged hagrees
  | scanIncremental changes deletes =>
    have h := (@searches_findDirty env m.folder.disk hcalm m.pullInFlight changes deletes).announced
      hcalm (s := m.scanState)
    rw [← scanIncremental_eq] at h
    exact h.imp (fun _ _ => id) fun _ => False.elim
  | scan sub =>
    change Ends (m.scanInner env sub) _ _ _
    unfold scanInner
    by_cases hpaused : m.paused = true
    · rw [if_pos hpaused, ends_pure]
      refine iff_of_true announcedAs_unchanged fun name => ?_
      cases sub <;> simp [LocalOp.looks, hpaused, timesReported]
    · rw [if_neg hpaused]
      cases sub with
      | none =>
        have h := (@searches_findChanges_none env m.folder.disk hcalm).announced hcalm
          (s := m.scanState)
        rw [← scanFolderAt_eq] at h
        simp only [LocalOp.Agrees, LocalOp.looks, hpaused, Bool.false_eq_true, if_false]
        exact h.imp (fun _ _ => id) fun _ => False.elim
      | some sub =>
        simp only [LocalOp.Agrees, LocalOp.looks, hpaused, Bool.false_eq_true, if_false]
        exact ends_subScan_announced hcalm (s := m.scanState)

/-- A full scan announces a new file as it has stored it. -/
theorem announcements_match_new_file :
    Ends ((idleFolder .empty (diskWith [5])).announce (calmScan 1) (.scan none))
      (fun files t => AnnouncedAs .empty t.db files) (fun t => AnnouncedAs .empty t.db [])
      ⟨.empty, 0⟩ := by
  refine (announcements_match_iff (m := idleFolder .empty (diskWith [5])) (fun _ => rfl)
    (.scan none)).mpr fun name => ?_
  by_cases hname : name = "x"
  · subst hname
    decide
  · have hlisting : (calmScan 1).listing (diskWith [5]) none =
      .ok [contentInfo id "x" [5] (0, 0)] := rfl
    have hfile : (contentInfo id "x" [5] (0, 0)).name ≠ name := Ne.symm hname
    have hentries : (calmScan 1).entriesOf (diskWith [5]) none name = [] := by
      simp [entriesOf, hlisting, Except.toOption, hfile]
    change timesReported none ((calmScan 1).fullLooks (diskWith [5]) name) ≤ 1
    rw [fullLooks, hentries, timesReported_append, lastKnown_missing]
    split <;> decide

/-- An override of a new file stores another version than it has announced, and an incremental
scan of a deleted path and a path below it announces the deletion twice. -/
theorem announcements_mismatch :
    (¬ Ends (announce { idleFolder .empty (diskWith [5]) with
        folderType := .receiveOnly } (calmScan 1) .overrideLocalChanges)
      (fun files t => AnnouncedAs .empty t.db files) (fun t => AnnouncedAs .empty t.db [])
      ⟨.empty, 0⟩) ∧
    let db : FolderFiles := KeyedList.empty.upsert (FileInfo.new "a/b")
    ¬ Ends ((idleFolder db .empty).announce (calmScan 1) (.scanIncremental [] ["a", "a/b"]))
      (fun files t => AnnouncedAs db t.db files) (fun t => AnnouncedAs db t.db []) ⟨db, 0⟩ := by
  constructor
  · intro h
    have hmatch := h.of_ok rfl
    obtain ⟨r, a, hr, ha, -, hversion, -⟩ := hmatch.recorded "x" (by decide)
    cases hr
    cases List.mem_singleton.mp ha
    exact absurd hversion (by decide)
  · intro db h
    have hmatch := h.of_ok rfl
    exact absurd hmatch.once (by decide)

end Syncthing
