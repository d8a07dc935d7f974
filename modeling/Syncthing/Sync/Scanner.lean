import Syncthing.Lib.Program
import Syncthing.Sync.Database
import Syncthing.Sync.Disk

/-! `syncthing-sync/src/scanner.rs` and `scanner/rename.rs`. A scan reads the disk and reads and
writes the records of its folder. SHA-256 and the ignore rules in force are parameters. -/
namespace Syncthing

open Program Text

def defaultIgnoredNames : List String :=
  [".stfolder", ".stversions", ".sttrash", ".stignore", "config.json", "cert.pem", "key.pem",
    "db", "logs"]

def defaultIgnoredSuffixes : List String := [".syncthing.tmp", "~syncthing~"]

/-- Any component of the relative path is default-excluded metadata. -/
def isDefaultIgnoredPath (relativePath : String) : Bool :=
  (splitChar '/' (replaceChar '\\' '/' relativePath)).any defaultIgnoredNames.contains

variable (relativePrefix name : String)

def pushName : String :=
  if relativePrefix = "" then name else relativePrefix ++ "/" ++ name

/-- `PathBuf::push` of a file name. -/
def pushPath : String :=
  if relativePrefix = "" || endsWith relativePrefix "/" then relativePrefix ++ name
  else relativePrefix ++ "/" ++ name

/-- The path itself or a directory above it matches an ignore rule. -/
def isIgnoredWithAncestors (matcher : String → Bool → Bool) (relativePath : String)
    (isDir : Bool) : Bool :=
  let normalized := replaceChar '\\' '/' relativePath
  let above := ((splitChar '/' normalized).dropLast.scanl pushName "").drop 1
  matcher normalized isDir || above.any fun directory => matcher directory true

variable (name : String)

/-- Names of directory entries that no scan looks at. -/
def skippedName : Bool :=
  defaultIgnoredNames.contains name || defaultIgnoredSuffixes.any (endsWith name) ||
    (startsWith name "." || startsWith name "~" || endsWith name ".tmp") ||
    hasPart name ".sync-conflict-"

/-- The calls of a scan that can fail. -/
inductive ScanStep where
  | readDir (path : List String)
  | metadata (path : List String)
  | openFile (path : List String)
  | readFile (path : List String)
  | readLink (path : List String)
  | dbFolderFiles
  | dbGetFile (name : String)
  | dbSequence (name : String)
  | dbUpdate (name : String)
  deriving DecidableEq

structure ScanEnv where
  folderId : String
  folderPath : String
  sha256 : Bytes → Bytes
  /-- Whether a path, a directory or not, matches `.stignore` or the configured patterns. -/
  matcher : String → Bool → Bool
  localCounterId : UInt64
  fault : ScanStep → Option IoError

/-- What a scan reads and writes of the local database. -/
structure ScanState where
  db : FolderFiles
  sequence : UInt64

abbrev ScanM := EStateM SyncError ScanState

def defaultBlockSize : Nat := 131072

variable (modified : Mtime)

/-- `duration_since(UNIX_EPOCH).unwrap_or_default()`. -/
def sinceEpoch : Mtime := if modified.1 < 0 then (0, 0) else modified

/-- The fields every scanned entry fills the same way. -/
def scannedInfo (fileType : FileType) (permissions : Nat) (modified : Mtime) : FileInfo :=
  { FileInfo.new name with
    fileType
    permissions
    modifiedS := modified.1
    modifiedNs := modified.2
    deleted := none
    baseVersion := some {
      size := 0
      modifiedS := modified.1
      modifiedNs := modified.2
      blocksHash := none
      contentHash := none } }

def directoryInfo : FileInfo :=
  scannedInfo name .directory 0o755 (sinceEpoch modified)

def symlinkInfo (target : String) (modified : Mtime) : FileInfo :=
  { scannedInfo name .symlink 0o755 ((sinceEpoch modified).1, 0) with
    symlinkTarget := some target }

variable (sha256 : Bytes → Bytes)

/-- The blocks of a content, the last one shorter. A zero-byte file has one empty block. -/
def contentBlocks (content : Bytes) : List BlockInfo :=
  if content.isEmpty then [⟨0, sha256 [], 0⟩]
  else
    let numBlocks := (content.length + defaultBlockSize - 1) / defaultBlockSize
    (List.range numBlocks).map fun i =>
      let data := (content.drop (i * defaultBlockSize)).take defaultBlockSize
      ⟨data.length, sha256 data, (i * defaultBlockSize : Nat)⟩

def contentInfo (name : String) (content : Bytes) (modified : Mtime) : FileInfo :=
  let modified := sinceEpoch modified
  { scannedInfo name .file 0o644 modified with
    size := content.length
    blockSize := defaultBlockSize
    blocks := contentBlocks sha256 content
    baseVersion := some {
      size := content.length
      modifiedS := modified.1
      modifiedNs := modified.2
      blocksHash := none
      contentHash := some (sha256 content) } }

/-- The content changed: the block hashes are not the same. -/
def hasFileChanged (old new : FileInfo) : Bool :=
  if old.blocks.length = new.blocks.length &&
      (old.blocks.zip new.blocks).all fun (o, n) => o.hash = n.hash then false
  else if old.size ≠ new.size then true
  else if old.modifiedS ≠ new.modifiedS || old.modifiedNs ≠ new.modifiedNs then true
  else if old.permissions ≠ new.permissions then true
  else true

def hasSameBlocks (a b : FileInfo) : Bool :=
  if a.blocks.length ≠ b.blocks.length || a.blocks.isEmpty then false
  else (a.blocks.zip b.blocks).all fun (x, y) => x.hash = y.hash

variable (changed : List FileInfo) (file : FileInfo)

/-- A changed file whose blocks are those of a deleted one: a rename. -/
def isRenameTarget (idx : Nat) : Bool :=
  !(file.isDeleted || file.blocks.isEmpty) && changed.zipIdx.any fun (del, delIdx) =>
    delIdx ≠ idx && del.isDeleted && hasSameBlocks del file

/-- Renamed files first; everything else keeps its order. -/
def detectAndReorderRenames : List FileInfo :=
  let (targets, others) := changed.zipIdx.partition fun (file, idx) =>
    isRenameTarget changed file idx
  (targets ++ others).map (·.1)

def clearDeletedBlocks : FileInfo :=
  if file.isDeleted then { file with blocks := [] } else file

variable (localCounterId sequence : UInt64)

/-- A record marked deleted by this device, its blocks kept. -/
def deletedInfo (file : FileInfo) : FileInfo := { file with
    deleted := some true
    size := 0
    sequence
    version := file.version.increment localCounterId }

def modifiedInfo (existing file : FileInfo) : FileInfo :=
  { file with
    sequence
    version := existing.version.increment localCounterId
    baseVersion := existing.baseVersion }

/-- A file the database has no record of. -/
def newInfo (sequence : UInt64) (file : FileInfo) : FileInfo :=
  { file with sequence, version := Vector.new.withCounter 1 1 }

namespace ScanEnv

variable (env : ScanEnv)

def check (step : ScanStep) (error : IoError → SyncError) : Except SyncError Unit :=
  match env.fault step with
  | none => .ok ()
  | some e => .error (error e)

/-- `scan_file`: what is at `path`, a file of that content, as the entry `name`. -/
def scanFile (path : List String) (name : String) (content : Bytes) (modified : Mtime) :
    Except SyncError FileInfo := do
  if content.length > 0 then
    env.check (.openFile path) fun e => .scan env.folderId ("Failed to open file: " ++ e)
    env.check (.readFile path) fun e => .scan env.folderId ("Failed to read file: " ++ e)
  return contentInfo env.sha256 name content modified

/-- The name of a directory entry below a prefix, with forward slashes. -/
def relativePath (relativePrefix name : String) : String :=
  if relativePrefix = "" then replaceChar '\\' '/' name
  else replaceChar '\\' '/' relativePrefix ++ "/" ++ replaceChar '\\' '/' name

/-- One entry of a directory: the body of the loop of `scan_directory`. -/
def scanEntry (d : Disk) (recurse : List String → String → Except SyncError (List FileInfo))
    (relativePrefix : String) (path : List String) : Except SyncError (List FileInfo) := do
  let name := path.getLast?.getD ""
  if skippedName name then return []
  env.check (.metadata path) fun e => .scan env.folderId ("Failed to get metadata: " ++ e)
  let relative := relativePath relativePrefix name
  match d.nodeAt path with
  | none => return []
  | some (.dir modified _) =>
    if env.matcher relative true then return []
    let subFiles ← recurse path (pushPath relativePrefix name)
    return subFiles ++ [directoryInfo relative modified]
  | some (.file content modified) =>
    if env.matcher relative false then return []
    return [← env.scanFile path relative content modified]
  | some (.symlink target modified _) =>
    if env.matcher relative false then return []
    env.check (.readLink path) fun e => .scan env.folderId ("Failed to read symlink: " ++ e)
    return [symlinkInfo relative target modified]

/-- The entries below a directory, no deeper than `depth` levels. The paths of one tree are
distinct, so none is visited twice. -/
def scanDirectory (d : Disk) : Nat → List String → String → Except SyncError (List FileInfo)
  | 0, _, _ => .ok []
  | depth + 1, path, relativePrefix => do
    env.check (.readDir path) fun e => .scan env.folderId ("Failed to read directory: " ++ e)
    let files ← (d.readDir path).mapM
      (env.scanEntry d (scanDirectory d depth) relativePrefix)
    return files.flatten

end ScanEnv

/-- No path of the disk is longer. -/
def Disk.depth (d : Disk) : Nat := (d.paths.map List.length).foldr max 0

namespace ScanEnv

variable (env : ScanEnv)

def getFolderFiles : ScanM (List FileInfo) := do
  require (env.check .dbFolderFiles .database)
  return (← get).db.entries

def getFile (name : String) : ScanM (Option FileInfo) := do
  require (env.check (.dbGetFile name) .database)
  return (← get).db.find? name

def incrementSequence (name : String) : ScanM UInt64 := do
  require (env.check (.dbSequence name) .database)
  modify fun s => { s with sequence := s.sequence + 1 }
  return (← get).sequence

def updateFile (file : FileInfo) : ScanM Unit := do
  require (env.check (.dbUpdate file.name) .database)
  modify fun s => { s with db := s.db.upsert file }

variable (d : Disk)

/-- The deletion of a recorded file that is no longer on disk. One being downloaded is left
alone. -/
def scanDeleted (dbFile : FileInfo) : ScanM (Option FileInfo) := do
  let path := namePath dbFile.name
  if !d.pathExists path && !dbFile.isDeleted then
    if d.pathExists (tempPathFor path) then return none
    let sequence ← env.incrementSequence dbFile.name
    return some (deletedInfo env.localCounterId sequence dbFile)
  return none

/-- Compares a scanned entry with its record. -/
def compareFile (file : FileInfo) : ScanM (Option FileInfo) := do
  match ← env.getFile file.name with
  | some existing =>
    if hasFileChanged existing file then
      let sequence ← env.incrementSequence file.name
      return some (modifiedInfo env.localCounterId sequence existing file)
    return none
  | none =>
    let sequence ← env.incrementSequence file.name
    return some (newInfo sequence file)

def scanDeletions : Option String → ScanM (List FileInfo)
  | some _ => pure []
  | none => do collect (env.scanDeleted d) (← env.getFolderFiles)

variable (sub : Option String)

/-- The changed entries, in the order they are stored and reported. -/
def orderChanged (changed : List FileInfo) : List FileInfo :=
  (if sub.isNone then detectAndReorderRenames changed else changed).map clearDeletedBlocks

def checkRoot (root : List String) : Except SyncError Unit :=
  let shown := "/".intercalate (env.folderPath :: root)
  if !d.pathExists root then .error (.scan env.folderId ("Path does not exist: " ++ shown))
  else if !d.isDir root then .error (.scan env.folderId ("Path is not a directory: " ++ shown))
  else .ok ()

/-- Scans a folder, or a directory of it, and stores and returns what changed. -/
def scanFolderAt : ScanM (List FileInfo) := do
  if sub.any isDefaultIgnoredPath then return []
  let root := (sub.map namePath).getD []
  require (env.checkRoot d root)
  if sub.any fun s => isIgnoredWithAncestors env.matcher s true then return []
  let files ← require (env.scanDirectory d (d.depth + 1) root (sub.getD ""))
  let deleted ← env.scanDeletions d sub
  let compared ← collect env.compareFile files
  let changed := orderChanged sub (deleted ++ compared)
  changed.forM env.updateFile
  return changed

variable (relative : String)

/-- An incremental scan of one file. The caller stores the result. -/
def scanChangedFile : ScanM (Option FileInfo) := do
  if isDefaultIgnoredPath relative then return none
  if isIgnoredWithAncestors env.matcher relative false then return none
  let path := namePath relative
  match d.nodeAt path with
  | some (.file content modified) | some (.symlink _ modified (.file content)) =>
    env.compareFile (← require (env.scanFile path relative content modified))
  | some (.dir ..) | some (.symlink _ _ .dir) => return none
  | none | some (.symlink _ _ .dangling) =>
    throw (.scan env.folderId ("Failed to get metadata for " ++ relative ++
      ": No such file or directory"))

/-- Marks a path as deleted when it is recorded and not deleted already. -/
def markDeleted : ScanM (Option FileInfo) := do
  match ← env.getFile relative with
  | some dbFile =>
    if dbFile.isDeleted then return none
    let sequence ← env.incrementSequence relative
    return some (clearDeletedBlocks (deletedInfo env.localCounterId sequence dbFile))
  | none => return none

/-- The body of `mark_deleted_subtree` for one record. -/
def markVanished (relativePrefix : String) (dbFile : FileInfo) : ScanM (Option FileInfo) := do
  let slashed :=
    if endsWith relativePrefix "/" then relativePrefix else relativePrefix ++ "/"
  if dbFile.isDeleted then return none
  if dbFile.name = relativePrefix || startsWith dbFile.name slashed then
    if d.pathExists (namePath dbFile.name) then return none
    let sequence ← env.incrementSequence dbFile.name
    return some (clearDeletedBlocks (deletedInfo env.localCounterId sequence dbFile))
  return none

/-- Marks the records at and below a path as deleted when they are no longer on disk. -/
def markDeletedSubtree (relativePrefix : String) : ScanM (List FileInfo) := do
  if isDefaultIgnoredPath relativePrefix then return []
  collect (env.markVanished d relativePrefix) (← env.getFolderFiles)

end ScanEnv
end Syncthing
