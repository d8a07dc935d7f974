import Syncthing.Net.Messages
import Syncthing.Sync.Database

/-! The configuration and the answers of `DaemonBepHandler`, `tui/bep_handler.rs`. -/
namespace Syncthing

structure FolderConfig where
  id : String
  label : Option String
  devices : List DeviceId
  deriving DecidableEq

/-- The folders a device is told of. The local device is listed with each of them. -/
def generateClusterConfig (localDeviceId : Option DeviceId) (folders : List FolderConfig)
    (device : DeviceId) : List WireFolder :=
  let localId := localDeviceId.getD .default
  (folders.filter (·.devices.contains device)).map fun f =>
    { id := f.id
      label := f.label.getD ""
      devices := if f.devices.contains localId then f.devices else f.devices ++ [localId] }

variable (sha256 : Bytes → Bytes)

/-- A record as it is sent: a deletion has no blocks, and an empty file has one empty block. -/
def wireFile (file : FileInfo) : FileInfo :=
  if file.isDeleted then { file with blocks := [] }
  else if file.fileType = .file && file.size = 0 && file.blocks.isEmpty then
    { file with blocks := [⟨0, sha256 [], 0⟩] }
  else file

variable (db : FolderFiles)

/-- The records newer than a sequence number. -/
def generateIndexUpdate (sinceSequence : UInt64) : List FileInfo :=
  db.entries.filter (sinceSequence < ·.sequence)

/-- The files of the initial `Index` of a session. -/
def generateIndex : List FileInfo :=
  (generateIndexUpdate db 0).map (wireFile sha256)

section
variable {sha256 : Bytes → Bytes} {file : FileInfo}

/-- Only the blocks of a record change on the way out. -/
theorem wireFile_eq (sha256 : Bytes → Bytes) (file : FileInfo) :
    ∃ blocks, wireFile sha256 file = { file with blocks } := by
  unfold wireFile
  split
  · exact ⟨_, rfl⟩
  · split
    · exact ⟨_, rfl⟩
    · exact ⟨file.blocks, rfl⟩

@[simp] theorem name_wireFile : (wireFile sha256 file).name = file.name := by
  obtain ⟨blocks, h⟩ := wireFile_eq sha256 file
  rw [h]

@[simp] theorem version_wireFile : (wireFile sha256 file).version = file.version := by
  obtain ⟨blocks, h⟩ := wireFile_eq sha256 file
  rw [h]

@[simp] theorem sequence_wireFile : (wireFile sha256 file).sequence = file.sequence := by
  obtain ⟨blocks, h⟩ := wireFile_eq sha256 file
  rw [h]

end

end Syncthing
