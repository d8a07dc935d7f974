import Syncthing.Core.Types
import Syncthing.Lib.Keyed
import Syncthing.Lib.Text

/-! `MemoryDatabase` and `FileSystemDatabase` of `syncthing-sync/src/database.rs`. The JSON codec is
a parameter, as is the folder a full cache evicts. Results of a call are `none` where it never
returns. -/
namespace Syncthing

/-- The records of one folder: at most one for each name. -/
abbrev FolderFiles := KeyedList FileInfo.name

inductive DbError where
  | io (message : String)
  | database (message : String)
  deriving DecidableEq

/-- In-memory database. A folder without an entry has no records. -/
structure MemoryDatabase where
  files : String → FolderFiles

namespace MemoryDatabase

def new : MemoryDatabase := ⟨fun _ => .empty⟩

variable (db : MemoryDatabase) (folder : String)

def setFolder (files : FolderFiles) : MemoryDatabase :=
  ⟨fun f => if f = folder then files else db.files f⟩

def getFile (folder name : String) : Option FileInfo := (db.files folder).find? name

def getFolderFiles : List FileInfo := (db.files folder).entries

def updateFile (info : FileInfo) : MemoryDatabase :=
  db.setFolder folder ((db.files folder).upsert info)

def updateFiles (newFiles : List FileInfo) : MemoryDatabase :=
  newFiles.foldl (fun db file => db.updateFile folder file) db

def deleteFile (folder name : String) : MemoryDatabase :=
  db.setFolder folder ((db.files folder).erase name)

end MemoryDatabase

/-- A path as its components. -/
abbrev Path := List String

/-- `base.join(rel)` with `.` and `..` resolved. -/
def joinPath (base : Path) (rel : String) : Path := (Text.splitChar '/' rel).foldl
    (fun path segment =>
      if segment = "" || segment = "." then path
      else if segment = ".." then path.dropLast
      else path ++ [segment])
    (if Text.startsWith rel "/" then [] else base)

/-- The directory tree below the database: which directories exist, and what the files hold. -/
structure DbDisk (γ : Type) where
  dirs : List Path
  files : KeyedList (Prod.fst : Path × γ → Path)

namespace DbDisk

variable {γ : Type}

def empty : DbDisk γ := ⟨[], .empty⟩

variable (d : DbDisk γ) (path : Path)

def pathExists : Bool := d.dirs.contains path || (d.files.find? path).isSome

def createDirAll : Except DbError (DbDisk γ) :=
  if path.inits.any fun p => (d.files.find? p).isSome then .error (.io "Not a directory")
  else .ok { d with dirs := path.inits ++ d.dirs }

def write (content : γ) : Except DbError (DbDisk γ) :=
  if d.dirs.contains path then .error (.io "Is a directory")
  else .ok { d with files := d.files.upsert (path, content) }

def readToString : Except DbError γ :=
  match d.files.find? path with
  | some file => .ok file.2
  | none =>
    .error (.io (if d.dirs.contains path then "Is a directory" else "No such file or directory"))

def removeFile : Except DbError (DbDisk γ) :=
  if d.dirs.contains path then .error (.io "Is a directory")
  else .ok { d with files := d.files.erase path }

/-- The paths of the entries of a directory. -/
def readDir : List Path :=
  (d.dirs.dedup ++ d.files.entries.map Prod.fst).filter fun p => p ≠ [] && p.dropLast = path

end DbDisk

/-- The file name `serde_json` records are looked for under. -/
def hasJsonExtension (path : Path) : Bool :=
  path.getLast?.any fun file => Text.endsWith file ".json" && file ≠ ".json"

/-- `serde_json` on file records, up to the text it produces. -/
structure JsonCodec (γ : Type) where
  toStringPretty : FileInfo → γ
  fromStr : γ → Except String FileInfo
  roundtrip : ∀ info, fromStr (toStringPretty info) = .ok info

/-- What the database does not change: its root and the codec. -/
structure DbConfig (γ : Type) where
  basePath : Path
  codec : JsonCodec γ

/-- Filesystem-backed database with its per-folder cache. -/
structure FileSystemDatabase (γ : Type) where
  disk : DbDisk γ
  cache : String → FolderFiles
  cacheSize : UInt64

namespace FileSystemDatabase

variable {γ : Type} (cfg : DbConfig γ) (db : FileSystemDatabase γ)

def cacheCap : UInt64 := 100000

def new : FileSystemDatabase γ := ⟨.empty, fun _ => .empty, 0⟩

variable (folder : String)

def folderPath : Path := joinPath cfg.basePath folder

def filePath (folder name : String) : Path :=
  folderPath cfg folder ++ [Text.replaceChar '/' '_' name ++ ".json"]

/-- Drops the cache of one folder. -/
def evictOneFolder (victim : String) : FileSystemDatabase γ := { db with
    cache := fun f => if f = victim then .empty else db.cache f
    cacheSize := db.cacheSize - UInt64.ofNat (db.cache victim).entries.length }

def getFile (folder name : String) : Except DbError (Option FileInfo) :=
  match (db.cache folder).find? name with
  | some file => .ok (some file)
  | none =>
    if !db.disk.pathExists (filePath cfg folder name) then .ok none
    else do
      let content ← db.disk.readToString (filePath cfg folder name)
      match cfg.codec.fromStr content with
      | .ok file => return some file
      | .error e => throw (.database ("Failed to parse file info: " ++ e))

def getFolderFiles : Except DbError (List FileInfo) :=
  if !db.disk.pathExists (folderPath cfg folder) then .ok []
  else do
    let contents ← ((db.disk.readDir (folderPath cfg folder)).filter hasJsonExtension).mapM
      db.disk.readToString
    return contents.filterMap fun content => (cfg.codec.fromStr content).toOption

/-- The file of a record is written before anything is cached. -/
def storeRecord (disk : DbDisk γ) (folder : String) (info : FileInfo) :
    Except DbError Unit × DbDisk γ :=
  match disk.createDirAll (folderPath cfg folder) with
  | .error e => (.error e, disk)
  | .ok disk =>
    match disk.write (filePath cfg folder info.name) (cfg.codec.toStringPretty info) with
    | .error e => (.error e, disk)
    | .ok disk => (.ok (), disk)

variable (info : FileInfo)

def isNew : Bool := ((db.cache folder).find? info.name).isNone

def putCache : FileSystemDatabase γ := { db with
    cache := fun f => if f = folder then (db.cache folder).upsert info else db.cache f
    cacheSize := if isNew db folder info then db.cacheSize + 1 else db.cacheSize }

variable (victim : Option String)

/-- Caches a record, and evicts when that makes the cache too large. The entry guard and the
iterator over the cache are still alive when a folder is removed, so whether that ever returns
is left to the map: the victim is `none` where it does not. -/
def cacheRecord : Option (FileSystemDatabase γ) :=
  if isNew db folder info && (putCache db folder info).cacheSize > cacheCap then
    victim.map (putCache db folder info).evictOneFolder
  else some (putCache db folder info)

def updateFile : Option (Except DbError Unit × FileSystemDatabase γ) :=
  match storeRecord cfg db.disk folder info with
  | (.error e, disk) => some (.error e, { db with disk })
  | (.ok _, disk) => (cacheRecord { db with disk } folder info victim).map fun db => (.ok (), db)

/-- One task of a batch. It works on a clone of the database, whose cache is its own; the
directory and the size counter are shared. -/
def updateFileOnClone (file : FileInfo × Option String) :
    Option (Except DbError Unit × FileSystemDatabase γ) :=
  (updateFile cfg db folder file.1 file.2).map fun r => (r.1, { r.2 with cache := db.cache })

/-- The tasks of a batch, in the order in which they write. The first error is returned once
all have been spawned; the tasks left run on or are aborted, here they are aborted. -/
def updateFiles (folder : String) : List (FileInfo × Option String) → FileSystemDatabase γ →
      Option (Except DbError Unit × FileSystemDatabase γ)
  | [], db => some (.ok (), db)
  | file :: files, db => do
    let (result, db) ← updateFileOnClone cfg db folder file
    match result with
    | .error e => return (.error e, db)
    | .ok _ => updateFiles folder files db

def deleteFile (folder name : String) : Except DbError Unit × FileSystemDatabase γ :=
  let path := filePath cfg folder name
  let removed := if db.disk.pathExists path then db.disk.removeFile path else .ok db.disk
  match removed with
  | .error e => (.error e, db)
  | .ok disk =>
    let files := db.cache folder
    let kept := files.erase name
    (.ok (), { disk
               cache := fun f => if f = folder then kept else db.cache f
               cacheSize :=
                 db.cacheSize - UInt64.ofNat (files.entries.length - kept.entries.length) })

end FileSystemDatabase

end Syncthing
