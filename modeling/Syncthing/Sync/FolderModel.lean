import Syncthing.Sync.IndexHandler
import Syncthing.Sync.Scanner

/-! `syncthing-sync/src/folder_model/mod.rs`: what the scan loop, the watcher, the pull loop and the
network do to the records and the files of a folder. A pull under way is the list of the tasks it
has still to finish; scans and index messages come in between. -/
namespace Syncthing

open Program

inductive FolderStatus where
  | idle
  | scanWaiting
  | scanning
  | syncWaiting
  | pulling
  | pushing
  | synced
  | paused
  | error
  deriving DecidableEq

inductive FolderType where
  | sendReceive
  | sendOnly
  | receiveOnly
  | receiveEncrypted
  deriving DecidableEq

/-- Whether remote changes are applied locally. -/
def FolderType.canSync : FolderType → Bool
  | sendReceive | receiveOnly | receiveEncrypted => true
  | sendOnly => false

theorem Disk.isDir_of_read? {d : Disk} {path : List String} {content : Bytes}
    (h : d.read? path = some content) : d.isDir path = false := by
  unfold read? at h
  unfold isDir
  split at h
  next hnode => rw [hnode]
  next hnode => rw [hnode]
  · cases h

namespace ScanEnv

variable (env : ScanEnv)

/-- A changed path of an incremental scan. While a pull is pending or running, no deletions are
inferred from what is missing on disk. -/
def scanDirtyChange (d : Disk) (pullInFlight : Bool) (relative : String) : ScanM (List FileInfo) :=
  match d.nodeAt (namePath relative) with
  | none | some (.symlink _ _ .dangling) => pure []
  | some (.dir ..) | some (.symlink _ _ .dir) => do
    let files ← logged (env.scanFolderAt d (some relative))
    if pullInFlight then return files
    let deleted ← logged (env.markDeletedSubtree d relative)
    return files ++ deleted
  | some (.file ..) | some (.symlink _ _ (.file _)) =>
    logged do return (← env.scanChangedFile d relative).toList

variable {env} in
theorem scanDirtyChange_cases {d : Disk} {pullInFlight : Bool} {relative : String}
    {P : ScanM (List FileInfo) → Prop} (hnothing : d.read? (namePath relative) = none →
      d.isDir (namePath relative) = false → P (pure []))
    (hdir : d.isDir (namePath relative) = true → P (do
      let files ← logged (env.scanFolderAt d (some relative))
      if pullInFlight then return files
      let deleted ← logged (env.markDeletedSubtree d relative)
      return files ++ deleted))
    (hfile : ∀ content, d.read? (namePath relative) = some content →
      P (logged do return (← env.scanChangedFile d relative).toList)) :
    P (env.scanDirtyChange d pullInFlight relative) := by
  unfold Disk.read? Disk.isDir at *
  unfold scanDirtyChange
  split
  all_goals
    rename_i hnode
    simp only [hnode] at hnothing hdir hfile
  · exact hnothing trivial trivial
  · exact hnothing trivial trivial
  · exact hdir trivial
  · exact hdir trivial
  · exact hfile _ rfl
  · exact hfile _ rfl

/-- A deleted path of an incremental scan. The event is stale if the file is there again. -/
def scanDirtyDelete (d : Disk) (relative : String) : ScanM (List FileInfo) :=
  if d.pathExists (namePath relative) then pure []
  else logged (env.markDeletedSubtree d relative)

/-- Scans the paths the watcher saw, and stores and returns what changed. -/
def scanIncremental (d : Disk) (pullInFlight : Bool) (changes deletes : List String) :
    ScanM (List FileInfo) := do
  let changed ← concat (env.scanDirtyChange d pullInFlight) changes
  let deleted ← concat (env.scanDirtyDelete d) deletes
  let changed := (detectAndReorderRenames (changed ++ deleted)).map clearDeletedBlocks
  changed.forM env.updateFile
  return changed

end ScanEnv
/-- A pull under way: the pending files it took, and once it is planned, the tasks it has
still to finish. -/
structure Pull where
  oldStatus : FolderStatus
  planned : Bool
  files : List FileInfo

structure FolderModel where
  folderType : FolderType
  paused : Bool
  status : FolderStatus
  folder : FolderState
  sequence : UInt64
  pending : List FileInfo
  pulls : List Pull

/-- Queues a file unless one of its name is queued already. -/
def queueFile (pending : List FileInfo) (file : FileInfo) : List FileInfo :=
  if pending.any (·.name = file.name) then pending else pending ++ [file]

namespace FolderModel

variable (m : FolderModel)

/-- The entries that wait to be pulled: queued, taken by a pull, or tasks of one. -/
def waiting : List FileInfo := m.pending ++ m.pulls.flatMap (·.files)

def handleRemoteIndex (files : List FileInfo) : FolderModel :=
  { m with pending := files.foldl queueFile m.pending }

/-- An `Index`, if it is full, or an `IndexUpdate` of a peer. What it needs is queued, unless
handling it fails half-way. -/
def indexMessage (env : IndexEnv) (full : Bool) (files : List FileInfo) : FolderModel :=
  match (if full then env.handleIndex files else env.handleIndexUpdate files) m.folder with
  | .ok outcome folder => { m with folder }.handleRemoteIndex outcome.needed
  | .error _ folder => { m with folder }

def scanState : ScanState := ⟨m.folder.db, m.sequence⟩

def withScanState (t : ScanState) : FolderModel :=
  { m with folder := { m.folder with db := t.db }, sequence := t.sequence }

def afterScan (x : ScanM (List FileInfo)) : FolderModel :=
  let t := after x m.scanState
  { m with
    folder := { m.folder with db := t.db }
    sequence := t.sequence
    status := if (result? x m.scanState).isSome then .idle else m.status }

/-- `scan_inner`. -/
def scan (env : ScanEnv) (sub : Option String) : FolderModel :=
  if m.paused then m else m.afterScan (env.scanFolderAt m.folder.disk sub)

def pullInFlight : Bool := !m.pending.isEmpty || m.status = .pulling

def incrementalScan (env : ScanEnv) (changes deletes : List String) : FolderModel :=
  m.afterScan (env.scanIncremental m.folder.disk m.pullInFlight changes deletes)

/-- `pull` goes on past its first checks. -/
def canPull : Bool := !m.paused && m.folderType.canSync && m.status ≠ .pulling

/-- A pull begins by taking the queue. -/
def takePending : FolderModel := { m with
    status := .pulling
    pending := []
    pulls := m.pulls ++ [⟨m.status, false, m.pending⟩] }

variable (env : PullEnv) (st : FolderState) (taken : List FileInfo)

/-- The tasks of a pull: what it took and what `check_needed_files` finds. `none` if it ends here,
with an error or with nothing to do. -/
def planTasks : Option (List FileInfo) × Disk :=
  match env.checkNeededFiles st with
  | .error _ => (none, st.disk)
  | .ok fsNeeded =>
    let needed := fsNeeded.foldl queueFile taken
    if needed.isEmpty then (none, st.disk)
    else match env.pullTasks st needed with
      | (.error _, disk) => (none, disk)
      | (.ok tasks, disk) => (some tasks, disk)

theorem planTasks_cases :
    planTasks env st taken = (none, st.disk) ∨ ∃ needed, env.checkNeededFiles st = .ok needed ∧
      planTasks env st taken = (some (PullEnv.withinDeleteQuota st.db (needed.foldl queueFile taken)),
        env.cleanupSttrash st.disk) := by
  unfold planTasks PullEnv.pullTasks
  cases env.checkNeededFiles st with
  | error => exact .inl rfl
  | ok needed =>
    simp only [Except.ok.injEq, exists_eq_left']
    split
    · exact .inl rfl
    · cases env.fault .createBase <;> cases env.fault .dbFolderFiles <;> simp

def planPull (before : List Pull) (pull : Pull) (later : List Pull) : FolderModel :=
  let (tasks, disk) := planTasks env m.folder pull.files
  let folder := { m.folder with disk }
  match tasks with
  | none => { m with folder, status := pull.oldStatus, pulls := before ++ later }
  | some tasks =>
    { m with folder, pulls := before ++ { pull with planned := true, files := tasks } :: later }

theorem folder_planPull {m : FolderModel} {env : PullEnv} {before later : List Pull} {pull : Pull} :
    (m.planPull env before pull later).folder =
      ⟨m.folder.db, (planTasks env m.folder pull.files).2⟩ := by
  unfold planPull
  split
  next h =>
    rw [h]
    split <;> rfl

theorem indexMessage_of_ends {m : FolderModel} {env : IndexEnv} {full : Bool}
    {files : List FileInfo} (P : FolderModel → Prop)
    (h : Ends (if full then env.handleIndex files else env.handleIndexUpdate files)
      (fun outcome folder => P ({ m with folder }.handleRemoteIndex outcome.needed))
      (fun folder => P { m with folder }) m.folder) : P (m.indexMessage env full files) := by
  unfold Ends at h
  unfold indexMessage
  split at h
  next hx =>
    rw [hx]
    exact h
  next hx =>
    rw [hx]
    exact h

end FolderModel

/-- What a download leaves on disk while it runs: the directory and the temporary file. -/
def Disk.partialDownload (d : Disk) (path : List String) (written : Bytes) (now : Mtime) : Disk :=
  match d.createDirAll path.dropLast now with
  | .error _ => d
  | .ok d =>
    match d.write (tempPathFor path) written now with
    | .error _ => d
    | .ok d => d

inductive FolderEvent where
  | index (env : IndexEnv) (full : Bool) (files : List FileInfo)
  | scan (env : ScanEnv) (sub : Option String)
  | incrementalScan (env : ScanEnv) (changes deletes : List String)
  | takePending
  | planPull (env : PullEnv) (pull : Pull)
  | progress (env : PullEnv) (info : FileInfo) (written : Bytes)
  | task (env : PullEnv) (info : FileInfo)
  | endPull

/-- One step of the tasks that work on a folder, in any order. A scan and the last part of a download,
from the archiving of the old file on, are one step each: no other task and no edit comes between
their calls. -/
inductive FolderStep : FolderModel → FolderEvent → FolderModel → Prop where
  | index {m env full files} :
    FolderStep m (.index env full files) (m.indexMessage env full files)
  | scan {m env sub} : FolderStep m (.scan env sub) (m.scan env sub)
  | incrementalScan {m env changes deletes} :
    FolderStep m (.incrementalScan env changes deletes) (m.incrementalScan env changes deletes)
  | takePending {m} (hpull : m.canPull = true) : FolderStep m .takePending m.takePending
  | planPull {m env before pull later} (hm : m.pulls = before ++ pull :: later)
    (hp : pull.planned = false) :
    FolderStep m (.planPull env pull) (m.planPull env before pull later)
  | progress {m env before pull later info written} (hm : m.pulls = before ++ pull :: later)
    (hp : pull.planned = true) (hinfo : info ∈ pull.files)
    (hvalid : validateRemoteName info.name = .ok ()) (hlive : info.isDeleted = false)
    (hfile : info.fileType = .file) :
    FolderStep m (.progress env info written) { m with folder := { m.folder with
      disk := m.folder.disk.partialDownload (namePath info.name) written env.clock.now } }
  | task {m env before pull later first info rest r} (hm : m.pulls = before ++ pull :: later)
    (hp : pull.planned = true) (hfiles : pull.files = first ++ info :: rest)
    (hr : env.pullTask m.folder info = some r) : FolderStep m (.task env info) { m with
      folder := r.state
      pulls := before ++ { pull with files := first ++ rest } :: later }
  | endPull {m before pull later} (hm : m.pulls = before ++ pull :: later)
    (hp : pull.planned = true) (hfiles : pull.files = []) :
    FolderStep m .endPull { m with status := .idle, pulls := before ++ later }

end Syncthing
