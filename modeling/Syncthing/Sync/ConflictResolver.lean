import Syncthing.Lib.Program
import Syncthing.Sync.Puller

/-! `syncthing-sync/src/conflict_resolver.rs`. A resolution writes the records of the folder and may
move the local file away. -/
namespace Syncthing

open Program

/-- How a conflict was resolved. -/
inductive ConflictResolution where
  | useLocal
  | useRemote
  | merge
  | renameBoth
  deriving DecidableEq

/-- The calls of index handling that can fail. -/
inductive IndexStep where
  | dbFolderFiles
  | dbGetFile (name : String)
  | dbUpdate (name : String)
  | renameConflict (name : String)
  deriving DecidableEq

structure IndexEnv where
  clock : Clock
  /-- The short local device ID, once it has been injected. -/
  localDeviceTag : Option String
  fault : IndexStep → Option IoError

abbrev IndexM := EStateM SyncError FolderState

def FileInfo.modified (f : FileInfo) : Mtime := (f.modifiedS, f.modifiedNs)

variable (localFile remote : FileInfo)

/-- Newer modification time wins; on ties the first diverging counter decides. -/
def remoteWinsConflict : Bool :=
  if localFile.modified.before remote.modified then true
  else if remote.modified.before localFile.modified then false
  else remote.version.concurrentOrder localFile.version = some .selfGreater

def isConflict : Bool :=
  if localFile.version.dominates remote.version then false
  else if remote.version.dominates localFile.version then false
  else true

def compareVersions (v w : Vector) : VersionComparison :=
  let vDominates := v.dominates w
  let wDominates := w.dominates v
  if vDominates && !wDominates then .greater
  else if wDominates && !vDominates then .less
  else if vDominates && wDominates then .equal
  else .conflict

variable (name : String)

/-- The name up to its last dot, and the rest, if there is a dot in its last component. -/
def splitExtension : String × String :=
  let ext := (name.toList.reverse.takeWhile (· ≠ '.')).reverse
  if Text.hasChar '.' name && !ext.contains '/' && !ext.contains '\\' then
    (String.ofList (name.toList.take (name.toList.length - ext.length - 1)),
      "." ++ String.ofList ext)
  else (name, "")

namespace IndexEnv

variable (env : IndexEnv)

def check (step : IndexStep) (error : IoError → SyncError) : Except SyncError Unit :=
  match env.fault step with
  | none => .ok ()
  | some e => .error (error e)

def getFolderFiles : IndexM (List FileInfo) := do
  require (env.check .dbFolderFiles .database)
  return (← get).db.entries

def getFile (name : String) : IndexM (Option FileInfo) := do
  require (env.check (.dbGetFile name) .database)
  return (← get).db.find? name

def updateFile (file : FileInfo) : IndexM Unit := do
  require (env.check (.dbUpdate file.name) .database)
  modify fun s => { s with db := s.db.upsert file }

/-- `name.sync-conflict-<timestamp>-<device short ID>.ext`. -/
def conflictName (name : String) : String := let (stem, ext) := splitExtension name
  stem ++ ".sync-conflict-" ++ env.clock.formatLocalStamp env.clock.now.1 ++ "-" ++
    env.localDeviceTag.getD "local" ++ ext

/-- Moves the local file to its conflict name and accepts the remote version. -/
def renameConflictFiles (localFile remote : FileInfo) : IndexM Unit := do
  let localPath := namePath localFile.name
  let disk := (← get).disk
  if disk.pathExists localPath then
    match orFault (env.fault (.renameConflict localFile.name))
      (disk.rename localPath (namePath (env.conflictName localFile.name))) with
    | .error e => throw (.conflict localFile.name ("Failed to rename local file: " ++ e))
    | .ok disk => modify fun s => { s with disk }
  env.updateFile remote

/-- Text merging is left to the puller, so `apply_resolution` only ever renames. -/
def resolveConflict (localFile remote : FileInfo) : IndexM ConflictResolution := do
  if !isConflict localFile remote then return .useRemote
  if !remoteWinsConflict localFile remote then
    env.updateFile localFile
    return .useLocal
  if isMergeableText localFile.name then
    env.updateFile remote
    return .useRemote
  env.renameConflictFiles localFile remote
  return .renameBoth

end IndexEnv

variable {localFile remote : FileInfo} {v w : Vector} {s : FolderState} {env : IndexEnv}

theorem isConflict_iff : isConflict localFile remote = true ↔
    ¬ remote.version.get ≤ localFile.version.get ∧ ¬ localFile.version.get ≤ remote.version.get := by
  rw [← Vector.dominates_iff, ← Vector.dominates_iff]
  unfold isConflict
  cases localFile.version.dominates remote.version <;>
    cases remote.version.dominates localFile.version <;> simp

theorem compareVersions_eq : compareVersions v w = v.compare w := by
  rw [Vector.compare_eq, compareVersions]
  cases v.dominates w <;> cases w.dominates v <;> rfl

/-- What a conflict leaves of the local file: nothing if it was there, for then it is moved. -/
inductive MovedAway (env : IndexEnv) (d : Disk) (name : String) : Disk → Prop where
  | missing (h : d.pathExists (namePath name) = false) : MovedAway env d name d
  | moved (d' : Disk) (h : d.pathExists (namePath name) = true)
    (hr : d.rename (namePath name) (namePath (env.conflictName name)) = .ok d') :
    MovedAway env d name d'

theorem IndexEnv.ends_updateFile {file : FileInfo}
    {Q : Unit → FolderState → Prop} {E : FolderState → Prop}
    (hQ : Q () ⟨s.db.upsert file, s.disk⟩) (hE : E s) : Ends (env.updateFile file) Q E s := by
  simp only [IndexEnv.updateFile, ends_bind, ends_require, ends_modify]
  exact ⟨fun _ _ => hQ, fun _ _ => hE⟩

theorem IndexEnv.ends_renameConflictFiles : Ends (env.renameConflictFiles localFile remote)
      (fun _ t => ∃ disk, MovedAway env s.disk localFile.name disk ∧ t = ⟨s.db.upsert remote, disk⟩)
      (fun t => t.db = s.db ∧ (t.disk = s.disk ∨ MovedAway env s.disk localFile.name t.disk))
      s := by
  unfold IndexEnv.renameConflictFiles
  simp only [ends_bind, ends_get]
  by_cases hp : s.disk.pathExists (namePath localFile.name)
  · rw [if_pos hp]
    split
    · simp
    next disk hdisk =>
      have hmoved : MovedAway env s.disk localFile.name disk :=
        .moved disk hp (orFault_eq_ok.mp hdisk).2
      simp only [ends_bind, ends_modify]
      exact ends_updateFile ⟨disk, hmoved, rfl⟩ ⟨rfl, .inr hmoved⟩
  · rw [if_neg hp]
    exact ends_updateFile ⟨s.disk, .missing (by simpa using hp), rfl⟩ ⟨rfl, .inl rfl⟩

end Syncthing
