import Mathlib.Data.List.Sort
import Syncthing.Sync.Disk

/-! `syncthing-versioner`: the simple and the staggered versioner. Archived copies stand in
`.stversions` under the file's own name and a time stamp. -/
namespace Syncthing

inductive Versioner where
  | simple (keep : Nat)
  | staggered
  deriving DecidableEq

/-- The calls of `archive` that can fail. -/
structure ArchiveFaults where
  createDir : Option IoError
  copy : Option IoError
  removeFile : Option IoError

/-- The result of a call that fails with the given error, if there is one. -/
def orFault {α : Type} (fault : Option IoError) (result : Except IoError α) : Except IoError α :=
  match fault with
  | some e => .error e
  | none => result

@[simp] theorem orFault_eq_ok {α : Type} {fault : Option IoError} {result : Except IoError α}
    {a : α} : orFault fault result = .ok a ↔ fault = none ∧ result = .ok a := by
  cases fault <;> simp [orFault]

def stversionsDir : List String := [".stversions"]

variable (path : List String)

def fileNameOrUnknown : String := path.getLast?.getD "unknown"

def versionPath (timestamp : String) : List String :=
  stversionsDir ++ [fileNameOrUnknown path ++ "~" ++ timestamp]

/-- The part of a file name behind its last tilde. -/
def timestampTag (filename : String) : String := (Text.splitChar '~' filename).getLast?.getD ""

def nodeMtime : DiskNode → Mtime
  | .file _ modified | .dir modified _ | .symlink _ modified _ => modified

variable (clock : Clock) (d : Disk)

/-- Whether `extract_timestamp` panics on a file name: it casts the seconds of the stamp to `u64` and
adds them to the epoch, which overflows for a time before it. -/
def stampPanics (filename : String) : Bool := (clock.parseStamp (timestampTag filename)).any (· < 0)

/-- The archive time of an entry of the archive whose stamp does not panic. -/
def versionTime (entry : List String) : Mtime :=
  match clock.parseStamp (timestampTag (fileNameOrUnknown entry)) with
  | some secs => (secs, 0)
  | none => ((d.nodeAt entry).map nodeMtime).getD (0, 0)

variable (path : List String)

/-- The entries of the archive for a file, in directory order. -/
def versionEntries : List (List String) :=
  (d.children stversionsDir).filter fun entry =>
    Text.startsWith (fileNameOrUnknown entry) (fileNameOrUnknown path ++ "~")

def laterVersion (a b : Mtime) : Prop := b.1 < a.1 ∨ b.1 = a.1 ∧ b.2 ≤ a.2

instance : DecidableRel laterVersion := fun a b =>
  inferInstanceAs (Decidable (b.1 < a.1 ∨ b.1 = a.1 ∧ b.2 ≤ a.2))

/-- The archive times of the versions of a file, newest first. -/
def listVersionsFor : List Mtime :=
  ((versionEntries d path).map (versionTime clock d)).insertionSort laterVersion

def getVersions (v : Versioner) (d : Disk) (path : List String) : List Mtime :=
  match v with
  | .simple _ => listVersionsFor clock d path
  | .staggered => (listVersionsFor clock d path).insertionSort fun a b => laterVersion b a

variable (faults : ArchiveFaults)

/-- Copies the file into the archive. -/
def archiveFile (d : Disk) (path : List String) :
    Except IoError Unit × Disk :=
  match orFault faults.createDir (d.createDirAll stversionsDir clock.now) with
  | .error e => (.error e, d)
  | .ok d =>
    match orFault faults.copy
      (d.copy path (versionPath path (clock.formatStamp clock.now.1)) clock.now) with
    | .error e => (.error e, d)
    | .ok d => (.ok (), d)

/-- Removes the versions with the given archive times, as far as their files exist. -/
def pruneVersions (clock : Clock) (faults : ArchiveFaults) (path : List String) :
    List Mtime → Disk → Except IoError Unit × Disk
  | [], d => (.ok (), d)
  | old :: rest, d =>
    let version := versionPath path (clock.formatStamp old.1)
    if d.pathExists version then
      match orFault faults.removeFile (d.removeFile version) with
      | .error e => (.error e, d)
      | .ok d => pruneVersions clock faults path rest d
    else pruneVersions clock faults path rest d

def Versioner.archive (v : Versioner) (d : Disk)
    (path : List String) : Except IoError Unit × Disk :=
  if !d.pathExists path then (.ok (), d)
  else
    match archiveFile clock faults d path, v with
    | (.ok _, d), .simple keep =>
      pruneVersions clock faults path ((listVersionsFor clock d path).drop keep) d
    | result, _ => result

/-- The distance of two instants in nanoseconds. -/
def nanosBetween (a b : Mtime) : Nat := ((a.1 - b.1) * 1000000000 + (a.2 - b.2)).natAbs

/-- The content a restore to `time` would copy: the first archived file within two seconds. -/
def restoreByTimestamp (time : Mtime) : Option Bytes :=
  ((versionEntries d path).find? fun entry =>
    nanosBetween (versionTime clock d entry) time < 2000000000).bind d.read?

/-- Copies the archived file back. -/
def Versioner.restore (time : Mtime) : Except IoError Disk :=
  match (versionEntries d path).find? fun entry =>
    nanosBetween (versionTime clock d entry) time < 2000000000 with
  | some entry => d.copy entry path clock.now
  | none => .error "version not found"

/-! ## Cleaning up a staggered archive -/

structure Interval where
  stepSecs : Int
  endSecs : Int

def defaultMaxAgeSecs : Int := 365 * 24 * 60 * 60

variable (maxAgeDays : Option Nat)

def maxAgeSecs : Int := (maxAgeDays.map fun days => (days : Int) * 86400).getD defaultMaxAgeSecs

def intervals : List Interval :=
  [⟨30, 3600⟩, ⟨3600, 86400⟩, ⟨86400, 30 * 86400⟩, ⟨7 * 86400, maxAgeSecs maxAgeDays⟩]

def findStep (age : Int) : Int :=
  (((intervals maxAgeDays).find? fun i => age < i.endSecs).map Interval.stepSecs).getD 0

/-- Seconds since the epoch, none before it. -/
def epochSecs (time : Mtime) : Int := max time.1 0

def versionAge (d : Disk) (entry : List String) : Int :=
  epochSecs clock.now - epochSecs (versionTime clock d entry)

/-- Removes what is there of the given paths. An error is ignored. -/
def removeEach (entries : List (List String)) (d : Disk) : Disk :=
  entries.foldl (fun d entry =>
    match d.removeFile entry with
    | .ok d => d
    | .error _ => d) d

/-- Removes the versions that are too old. -/
def cleanExpired (d : Disk) : Disk :=
  removeEach ((d.children stversionsDir).filter fun entry =>
    maxAgeSecs maxAgeDays < versionAge clock d entry) d

/-- The part of a file name before its last tilde. -/
def versionBase (filename : String) : String :=
  String.intercalate "~" (Text.splitChar '~' filename).dropLast

/-- The entries whose name ends in a time stamp, with their ages. -/
def stampedEntries (d : Disk) : List (String × Int) :=
  (d.children stversionsDir).filterMap fun entry =>
    let filename := fileNameOrUnknown entry
    if Text.hasChar '~' filename then
      (clock.parseStamp (timestampTag filename)).map fun secs =>
        (filename, epochSecs clock.now - epochSecs (secs, 0))
    else none

section windows
variable {α : Type}

/-- The loop over the versions of a file, youngest first: one is kept if it is a step older than
the last one that was kept. -/
def windowRemovals (maxAgeDays : Option Nat) : Option Int → List (α × Int) → List α
  | _, [] => []
  | prevAge, (version, age) :: rest =>
    if maxAgeSecs maxAgeDays < age ∧ 0 < maxAgeSecs maxAgeDays then
      version :: windowRemovals maxAgeDays prevAge rest
    else
      match prevAge with
      | none => windowRemovals maxAgeDays (some age) rest
      | some prev =>
        if 0 < findStep maxAgeDays age ∧ 0 < (age - prev).tdiv (findStep maxAgeDays age) then
          windowRemovals maxAgeDays (some age) rest
        else version :: windowRemovals maxAgeDays prevAge rest

def groupRemovals (maxAgeDays : Option Nat) (versions : List (α × Int)) : List α :=
  if versions.length ≤ 1 then []
  else windowRemovals maxAgeDays none (versions.insertionSort fun a b => a.2 ≤ b.2)

end windows

def pruneAll (d : Disk) : Disk :=
  let entries := stampedEntries clock d
  let groups := (entries.map fun entry => versionBase entry.1).dedup.map fun base =>
    entries.filter fun entry => versionBase entry.1 = base
  let toRemove := groups.flatMap (groupRemovals maxAgeDays)
  removeEach ((toRemove.map fun name => stversionsDir ++ [name]).filter d.pathExists) d

def Versioner.clean (v : Versioner) (d : Disk) : Disk :=
  match v with
  | .simple _ => d
  | .staggered => pruneAll clock maxAgeDays (cleanExpired clock maxAgeDays d)

end Syncthing
