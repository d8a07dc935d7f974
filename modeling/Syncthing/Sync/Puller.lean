import Syncthing.Sync.BlockServer
import Syncthing.Sync.Database
import Syncthing.Sync.Merge
import Syncthing.Sync.Versioner
import Mathlib.Algebra.Group.Int.Defs

/-! `syncthing-sync/src/puller`. Every call that can fail does so when the environment says so; what
a failed call leaves behind stays. SHA-256, the UTF-8 codec and the line diff are parameters. -/
namespace Syncthing

/-- The database records and the files of one folder. -/
structure FolderState where
  db : FolderFiles
  disk : Disk

/-- The calls of a pull that can fail. -/
inductive IoStep where
  | dbFolderFiles
  | dbGetFile
  | dbUpdate
  | createParent
  | copySource
  | createTemp
  | writeBlock (index : Nat)
  | flush
  | setPermissions
  | removeTemp
  | readLocal
  | readTemp
  | restore (index : Nat)
  | writeMerged
  | archiveDir
  | archiveCopy
  | pruneVersion
  | rename (attempt : Nat)
  | removeTarget (attempt : Nat)
  | setMtime
  | createDirectory
  | createTrash
  | moveToTrash
  | removeTrash (path : List String)
  | metadata (name : String)
  | createBase
  deriving DecidableEq

structure PullEnv where
  folderPath : String
  sha256 : Bytes → Bytes
  clock : Clock
  fault : IoStep → Option IoError
  /-- The answers of the peers, by block and block number. -/
  blockSource : Option (BlockInfo → Nat → Except SyncError Bytes)
  fromUtf8 : Bytes → Option String
  asBytes : String → Bytes
  textDiff : String → String → List DiffOp
  /-- The number of iterations after which a merge counts as not returning. -/
  mergeFuel : Nat
  versioner : Option Versioner

/-- How the task of one file ends. -/
inductive TaskResult where
  | ok
  | error (e : SyncError)
  | panicked
  deriving DecidableEq

namespace PullEnv

variable (env : PullEnv)

def archiveFaults : ArchiveFaults where
  createDir := env.fault .archiveDir
  copy := env.fault .archiveCopy
  removeFile := env.fault .pruneVersion

/-- Archives what is at a path, if there is a versioner and something to archive. A failure is
only logged. -/
def archiveExisting (d : Disk) (path : List String) : Disk :=
  match env.versioner with
  | some v => if d.pathExists path then (v.archive env.clock env.archiveFaults d path).2 else d
  | none => d

/-- The fallback removes the target, if it is there, before each further attempt. -/
def removeTarget (d : Disk) (path : List String) (attempt : Nat) : Disk :=
  if d.pathExists path then
    match orFault (env.fault (.removeTarget attempt)) (d.removeFile path) with
    | .ok d => d
    | .error _ => d
  else d

/-- The attempts of `rename_with_retry` that follow a failed one. -/
def renameRetries (temp path : List String) : Nat → Nat → Disk → Bool × Disk
  | 0, _, d => (false, d)
  | left + 1, attempt, d =>
    let d := env.removeTarget d path attempt
    match orFault (env.fault (.rename attempt)) (d.rename temp path) with
    | .ok d => (true, d)
    | .error _ => renameRetries temp path left (attempt + 1) d

def renameRetryMaxAttempts : Nat := 5

/-- A direct rename, then one with the target removed, then the retries with backoff. -/
def renameWithRetry (d : Disk) (temp path : List String) : Bool × Disk :=
  match orFault (env.fault (.rename 0)) (d.rename temp path) with
  | .ok d => (true, d)
  | .error _ => env.renameRetries temp path (renameRetryMaxAttempts + 1) 1 d

/-- The last error of `rename_with_retry`. The path it tells is that below the folder. -/
def renameError (name : String) : SyncError :=
  .pull name ("Failed to rename file after " ++ toString renameRetryMaxAttempts ++
    " retries (temp preserved at " ++ "/".intercalate (tempPathFor (namePath name)) ++ ")")

/-- `UNIX_EPOCH + Duration::from_secs(modified_s as u64) + Duration::from_nanos(modified_ns as u64)`.
The seconds of a `SystemTime` are an `i64`; an addition that leaves them panics. -/
def systemTime (info : FileInfo) : Option Mtime :=
  let nanos := info.modifiedNs % 2 ^ 64
  let secs := info.modifiedS % 2 ^ 64 + nanos / 10 ^ 9
  if secs < 2 ^ 63 then some (secs, nanos % 10 ^ 9) else none

variable (st : FolderState)

/-- Moves the temporary file into place, dates it and records it. -/
def install (info recorded : FileInfo) : TaskResult × FolderState :=
  let path := namePath info.name
  let (renamed, disk) := env.renameWithRetry st.disk (tempPathFor path) path
  if !renamed then (.error (renameError info.name), { st with disk })
  else match systemTime info with
    | none => (.panicked, { st with disk })
    | some modified =>
      let disk := if (env.fault .setMtime).isSome then disk else disk.setMtime path modified
      let db := if (env.fault .dbUpdate).isSome then st.db else st.db.upsert recorded
      (.ok, { db, disk })

variable (info : FileInfo)

/-- A local file with identical block hashes, by the database. -/
def findLocalCopySource : Except SyncError (Option (List String)) :=
  if info.blocks.isEmpty || info.isDeleted then .ok none
  else match env.fault .dbFolderFiles with
    | some e => .error (.database e)
    | none => .ok <| (st.db.entries.find? fun f =>
        !f.isDeleted && f.name ≠ info.name && f.blockHashes = info.blockHashes &&
          st.disk.pathExists (namePath f.name) && st.disk.isFile (namePath f.name)).map
        fun f => namePath f.name

/-- The rename optimisation: the content comes from a local file. -/
def copyFromLocal (source : List String) : TaskResult × FolderState :=
  let path := namePath info.name
  let temp := tempPathFor path
  match orFault (env.fault .createParent) (st.disk.createDirAll path.dropLast env.clock.now) with
  | .error e => (.error (.pull info.name ("Failed to create parent directory: " ++ e)), st)
  | .ok disk =>
    match orFault (env.fault .copySource) (disk.copy source temp env.clock.now) with
    | .error e =>
      (.error (.pull info.name ("Failed to copy from local source: " ++ e)), { st with disk })
    | .ok disk => env.install { st with disk := env.archiveExisting disk path } info info

/-- Receives the blocks in order, checking each hash. Returns what was written as well. -/
def fetchBlocks (name : String) : List BlockInfo → Nat → Bytes → Except SyncError Unit × Bytes
  | [], _, written => (.ok (), written)
  | block :: blocks, index, written =>
    match env.blockSource with
    | none => (.error (.pull name "No block source configured"), written)
    | some source =>
      match source block index with
      | .error e => (.error e, written)
      | .ok data =>
        if env.sha256 data ≠ block.hash then (.error (.checksumMismatch block.offset), written)
        else match env.fault (.writeBlock index) with
          | some e => (.error (.pull name ("Failed to write block: " ++ e)), written)
          | none => fetchBlocks name blocks (index + 1) (written ++ data)

def cleanupTemp (d : Disk) (temp : List String) : Disk :=
  if d.pathExists temp then
    match orFault (env.fault .removeTemp) (d.removeFile temp) with
    | .ok d => d
    | .error _ => d
  else d

/-- Recovers the base content from the archive by its hash. -/
def recoverBaseContent (v : Versioner) (d : Disk) (path : List String) (base : FileInfoBase) :
    Option String := do
  let expected ← base.contentHash
  let contents := (getVersions env.clock v d path).zipIdx.filterMap fun (time, i) =>
    if (env.fault (.restore i)).isSome then none else restoreByTimestamp env.clock d path time
  let content ← contents.find? fun content => env.sha256 content = expected
  env.fromUtf8 content

end PullEnv

/-- `is_mergeable_text`. -/
def isMergeableText (path : String) : Bool :=
  [".md", ".txt", ".rs", ".toml", ".json", ".yaml", ".yml", ".py", ".js", ".ts", ".css", ".html",
    ".sh", ".ps1", ".ini", ".cfg", ".log", ".c", ".h", ".cpp", ".go", ".java", ".kt", ".swift",
    ".rb", ".php"].any (Text.endsWith path)

namespace PullEnv

variable (env : PullEnv) (st : FolderState) (info : FileInfo)

/-- The three texts of a merge, when all its preconditions hold. -/
def mergeTexts : Option (String × String × String) := do
  let path := namePath info.name
  guard (st.disk.pathExists path)
  guard (env.fault .dbGetFile).isNone
  let localInfo ← st.db.find? info.name
  let base ← localInfo.baseVersion
  guard (isMergeableText info.name)
  guard ((env.fault .readLocal).isNone && (env.fault .readTemp).isNone)
  let localContent ← (st.disk.read? path).bind env.fromUtf8
  let remoteContent ← (st.disk.read? (tempPathFor path)).bind env.fromUtf8
  let v ← env.versioner
  let baseContent ← env.recoverBaseContent v st.disk path base
  return (baseContent, localContent, remoteContent)

/-- Writes the merge of a local and a downloaded text over the temporary file. -/
def writeMerged (st : FolderState) (info : FileInfo) (merged : MergeResult) :
    FileInfo × FolderState :=
  match orFault (env.fault .writeMerged)
    (st.disk.write (tempPathFor (namePath info.name)) (env.asBytes merged.content)
      env.clock.now) with
  | .error _ => (info, st)
  | .ok disk =>
    ({ info with baseVersion := some {
        size := (env.asBytes merged.content).length
        modifiedS := info.modifiedS
        modifiedNs := info.modifiedNs
        blocksHash := none
        contentHash := some (env.sha256 (env.asBytes merged.content)) } }, { st with disk })

/-- What a finished download leaves: how it ended, the folder, and whether it merged. -/
structure Downloaded where
  result : TaskResult
  state : FolderState
  merged : Bool

/-- The part of a download that follows the last block. `none` if the merge never returns. -/
def finishDownload : Option Downloaded := do
  let path := namePath info.name
  match env.mergeTexts st info with
  | none =>
    let (result, state) :=
      env.install { st with disk := env.archiveExisting st.disk path } info info
    return ⟨result, state, false⟩
  | some (base, localContent, remoteContent) =>
    let merged ← threeWayMerge env.textDiff env.mergeFuel base localContent remoteContent
    let (recorded, st) := env.writeMerged st info merged
    let (result, state) :=
      env.install { st with disk := env.archiveExisting st.disk path } info recorded
    return ⟨result, state, true⟩

/-- The network path of a download. -/
def downloadBlocks : Option Downloaded :=
  let path := namePath info.name
  let temp := tempPathFor path
  match orFault (env.fault .createParent) (st.disk.createDirAll path.dropLast env.clock.now) with
  | .error e =>
    some ⟨.error (.pull info.name ("Failed to create parent directory: " ++ e)), st, false⟩
  | .ok disk =>
    match orFault (env.fault .createTemp) (disk.write temp [] env.clock.now) with
    | .error e =>
      some ⟨.error (.pull info.name ("Failed to create temp file: " ++ e)), { st with disk }, false⟩
    | .ok disk =>
      let (fetched, written) := env.fetchBlocks info.name info.blocks 0 []
      let disk := disk.overwrite temp written env.clock.now
      let failed (e : SyncError) : Option Downloaded :=
        some ⟨.error e, { st with disk := env.cleanupTemp disk temp }, false⟩
      match fetched with
      | .error e => failed e
      | .ok _ =>
        match env.fault .flush, env.fault .setPermissions with
        | some e, _ => failed (.pull info.name ("Failed to flush file: " ++ e))
        | none, some e => failed (.pull info.name ("Failed to set permissions: " ++ e))
        | none, none => env.finishDownload { st with disk } info

def downloadFile : Option Downloaded :=
  match validateRemoteName info.name with
  | .error e => some ⟨.error (.pull info.name
      ("Invalid remote file name (path traversal rejected): " ++ e.message)), st, false⟩
  | .ok _ =>
    match env.findLocalCopySource st info with
    | .error e => some ⟨.error e, st, false⟩
    | .ok (some source) =>
      let (result, state) := env.copyFromLocal st info source
      some ⟨result, state, false⟩
    | .ok none => env.downloadBlocks st info

/-- A directory entry; one that exists already is left as it is. -/
def createDirectory (st : FolderState) (info : FileInfo) : TaskResult × FolderState :=
  let path := namePath info.name
  match validateRemoteName info.name with
  | .error e => (.error (.pull info.name
      ("Invalid remote directory name (path traversal rejected): " ++ e.message)), st)
  | .ok _ =>
    if st.disk.pathExists path then
      if !st.disk.isDir path then (.error (.pull info.name
          ("Path exists but is not a directory: " ++ env.folderPath ++ "/" ++ info.name)), st)
      else (.ok, st)
    else match orFault (env.fault .createDirectory) (st.disk.createDirAll path env.clock.now) with
      | .error e => (.error (.pull info.name ("Failed to create directory: " ++ e)), st)
      | .ok disk => (.ok, { st with disk })

variable (d : Disk)

/-- `<folder>/.sttrash/<YYYYMMDD>/<relative path>`, with the time appended on a collision. -/
def trashPath (name : String) : List String :=
  let dest := ".sttrash" :: env.clock.formatDate env.clock.now.1 :: namePath name
  if d.pathExists dest then
    dest.dropLast ++ [dest.getLast?.getD "" ++ "." ++ env.clock.formatTime env.clock.now.1]
  else dest

/-- The directory of the trash path is made before the collision check. -/
def moveToTrash (d : Disk) (name : String) : Except SyncError Unit × Disk :=
  let parent := ".sttrash" :: env.clock.formatDate env.clock.now.1 :: (namePath name).dropLast
  match orFault (env.fault .createTrash) (d.createDirAll parent env.clock.now) with
  | .error e => (.error (.pull name ("Failed to create .sttrash dir: " ++ e)), d)
  | .ok d =>
    match orFault (env.fault .moveToTrash) (d.rename (namePath name) (env.trashPath d name)) with
    | .error e => (.error (.pull name ("Failed to move to .sttrash: " ++ e)), d)
    | .ok d => (.ok (), d)

def recordDeletion : TaskResult × FolderState :=
  match env.fault .dbUpdate with
  | some e => (.error (.database e), st)
  | none => (.ok, { st with db := st.db.upsert info })

/-- Deletes a file by moving it into `.sttrash`, and records the deletion. -/
def deleteFile : TaskResult × FolderState :=
  match validateRemoteName info.name with
  | .error e => (.error (.pull info.name
      ("Invalid remote file name for deletion (path traversal rejected): " ++ e.message)), st)
  | .ok _ =>
    if st.disk.pathExists (namePath info.name) then
      match env.moveToTrash st.disk info.name with
      | (.error e, disk) => (.error (.pull info.name
          ("Failed to quarantine file to .sttrash: " ++ e.message)), { st with disk })
      | (.ok _, disk) => env.recordDeletion { st with disk } info
    else env.recordDeletion st info

/-- The task of one needed file. `none` if its merge never returns. -/
def pullTask : Option Downloaded :=
  if info.isDeleted then let (result, state) := env.deleteFile st info
    some ⟨result, state, false⟩
  else match info.fileType with
    | .directory =>
      let (result, state) := env.createDirectory st info
      some ⟨result, state, false⟩
    | .file => env.downloadFile st info
    | .symlink => some ⟨.ok, st, false⟩

def trashRetention : Int := 7 * 86400

variable (path : List String)

/-- A date directory of the trash that is older than the retention. -/
def isExpired : Bool :=
  match env.clock.parseDate (path.getLast?.getD "") with
  | none => false
  | some date => Mtime.before (date, 0) (env.clock.now.1 - trashRetention, env.clock.now.2)

/-- `remove_dir_all`; a failure is only logged. -/
def removeTrashEntry : Disk :=
  if (env.fault (.removeTrash path)).isSome then d
  else match d.nodeAt path with
    | some (.dir ..) => d.removeTree path
    | some (.symlink ..) => d.remove path
    | _ => d

def cleanupSttrash : Disk :=
  ((d.children [".sttrash"]).filter env.isExpired).foldl env.removeTrashEntry d

/-- Whether the file on disk does not fit a record: whether it must be gone, is missing, or has
another size. -/
def isNeeded (info : FileInfo) : Except SyncError Bool :=
  let path := namePath info.name
  if info.isDeleted then .ok (d.pathExists path)
  else if !d.pathExists path then .ok true
  else if info.fileType = .directory then .ok false
  else match orFault (env.fault (.metadata info.name)) (d.metadataLen path) with
    | .error e => .error (.io e)
    | .ok len => .ok ((len : Int) ≠ info.size % 2 ^ 64)

/-- The records of a list whose files have to be pulled. The first error ends it. -/
def neededOf (d : Disk) : List FileInfo → Except SyncError (List FileInfo)
  | [] => .ok []
  | info :: infos => do
    let needed ← env.isNeeded d info
    let rest ← neededOf d infos
    return if needed then info :: rest else rest

/-- The files that still need to be pulled. -/
def checkNeededFiles : Except SyncError (List FileInfo) :=
  match env.fault .dbFolderFiles with
  | some e => .error (.database e)
  | none => env.neededOf st.disk st.db.entries

def pullDeleteQuotaMin : Nat := 20

/-- An over-quota batch of deletions is dropped wholesale. -/
def withinDeleteQuota (db : FolderFiles) (needed : List FileInfo) : List FileInfo :=
  let localCount := (db.entries.filter (!·.isDeleted)).length
  let quota := max pullDeleteQuotaMin (localCount / 4)
  if (needed.filter (·.isDeleted)).length > quota then needed.filter (!·.isDeleted) else needed

/-- `pull_folder` up to its loop: the tasks to run. -/
def pullTasks (needed : List FileInfo) : Except SyncError (List FileInfo) × Disk :=
  match env.fault .createBase, env.fault .dbFolderFiles with
  | some e, _ => (.error (.pull env.folderPath ("Failed to create directory: " ++ e)), st.disk)
  | none, some e => (.error (.database e), st.disk)
  | none, none => (.ok (withinDeleteQuota st.db needed), env.cleanupSttrash st.disk)

end PullEnv

end Syncthing
