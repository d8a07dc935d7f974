import Syncthing.Sync.ConflictResolver

/-! `syncthing-sync/src/index_handler.rs`, one folder. -/
namespace Syncthing

open Program

/-- Whether the remote version should replace the local one. -/
inductive UpdateDecision where
  | update
  | ignore
  | conflict
  deriving DecidableEq

def needsUpdate (localFile remote : FileInfo) : UpdateDecision :=
  match compareVersions localFile.version remote.version with
  | .equal =>
    if localFile.size ≠ remote.size || localFile.modifiedS ≠ remote.modifiedS ||
        localFile.modifiedNs ≠ remote.modifiedNs then .conflict
    else .ignore
  | .greater => .ignore
  | .less => .update
  | .conflict => .conflict

/-- An accepted file has to be pulled, unless it is a deletion. -/
def pulledUnlessDeleted (remote : FileInfo) : Option FileInfo :=
  if remote.isDeleted then none else some remote

/-- What `process_files` returns and what it publishes. -/
structure IndexOutcome where
  needed : List FileInfo
  /-- The files of the `LocalIndexUpdated` event, if one is published. -/
  unpushed : List FileInfo
  deriving DecidableEq

namespace IndexEnv

variable (env : IndexEnv)

/-- Resolves a conflict; the remote file is needed if it is to be used. -/
def resolveNeeded (localFile remote : FileInfo) : IndexM (Option FileInfo) := do
  let resolution ← env.resolveConflict localFile remote
  return if resolution = .useRemote then pulledUnlessDeleted remote else none

/-- One file of an index: the body of the loop of `process_files`. -/
def processFile (remote : FileInfo) : IndexM (Option FileInfo) := do
  match validateRemoteName remote.name with
  | .error _ => return none
  | .ok _ =>
    match ← env.getFile remote.name with
    | some localFile =>
      match needsUpdate localFile remote with
      | .update =>
        if isConflict localFile remote then env.resolveNeeded localFile remote
        else
          env.updateFile remote
          return pulledUnlessDeleted remote
      | .ignore => return none
      | .conflict => env.resolveNeeded localFile remote
    | none =>
      if remote.isDeleted then return none
      env.updateFile remote
      return some remote

variable (files : List FileInfo)

/-- The live local files that a full index does not name. -/
def unpushedFiles : Bool → IndexM (List FileInfo)
  | false => pure []
  | true => do
    return (← env.getFolderFiles).filter fun localFile =>
      !(files.any fun f => f.name = localFile.name) && !localFile.isDeleted

def processFiles (isFullIndex : Bool) : IndexM IndexOutcome := do
  let needed ← collect env.processFile files
  let unpushed ← env.unpushedFiles files isFullIndex
  return ⟨needed, unpushed⟩

/-- A far smaller remote index is partial, not authoritative: under half of more than ten
local files. -/
def effectiveFullIndex (remoteCount localCount : Nat) : Bool :=
  if remoteCount > 0 then !(remoteCount * 2 < max localCount 1 && localCount > 10)
  else !(localCount > 10)

def handleIndex : IndexM IndexOutcome := do
  let localCount := (← env.getFolderFiles).length
  env.processFiles files (effectiveFullIndex files.length localCount)

def handleIndexUpdate : IndexM IndexOutcome := env.processFiles files false

end IndexEnv

variable {localFile remote : FileInfo}

theorem needsUpdate_update_iff : needsUpdate localFile remote = .update ↔
    localFile.version.dominates remote.version = false ∧
      remote.version.dominates localFile.version = true := by
  unfold needsUpdate compareVersions
  cases localFile.version.dominates remote.version <;>
    cases remote.version.dominates localFile.version <;> simp
  split <;> simp

theorem needsUpdate_of_isConflict (h : isConflict localFile remote = true) :
    needsUpdate localFile remote = .conflict := by
  obtain ⟨hlr, hrl⟩ := isConflict_iff.mp h
  rw [← Vector.dominates_iff, Bool.not_eq_true] at hlr hrl
  simp [needsUpdate, compareVersions, hlr, hrl]

theorem name_of_pulledUnlessDeleted {f : FileInfo} (h : f ∈ pulledUnlessDeleted remote) :
    f = remote ∧ remote.isDeleted = false := by
  unfold pulledUnlessDeleted at h
  split at h
  · cases h
  next hd =>
    cases h
    exact ⟨rfl, by simpa using hd⟩

namespace IndexEnv

variable {env : IndexEnv} {s t : FolderState} {needed : Option FileInfo}

/-- How one file of an index is processed: whether it is needed, and what it leaves. -/
inductive FileProcessed (env : IndexEnv) (s : FolderState) (remote : FileInfo) :
    Option FileInfo → FolderState → Prop where
  | rejected (e : BlockRequestError) (hname : validateRemoteName remote.name = .error e) :
    FileProcessed env s remote none s
  | unknownDeletion (hf : s.db.find? remote.name = none) (hd : remote.isDeleted = true) :
    FileProcessed env s remote none s
  | new (hf : s.db.find? remote.name = none) (hd : remote.isDeleted = false)
    (hname : validateRemoteName remote.name = .ok ()) :
    FileProcessed env s remote (some remote) ⟨s.db.upsert remote, s.disk⟩
  | ignored (localFile : FileInfo) (hf : s.db.find? remote.name = some localFile)
    (hn : needsUpdate localFile remote = .ignore) : FileProcessed env s remote none s
  | updated (localFile : FileInfo) (hf : s.db.find? remote.name = some localFile)
    (hn : needsUpdate localFile remote = .update)
    (hname : validateRemoteName remote.name = .ok ()) :
    FileProcessed env s remote (pulledUnlessDeleted remote) ⟨s.db.upsert remote, s.disk⟩
  | sameVersion (localFile : FileInfo) (hf : s.db.find? remote.name = some localFile)
    (hn : needsUpdate localFile remote = .conflict) (hc : isConflict localFile remote = false)
    (hname : validateRemoteName remote.name = .ok ()) :
    FileProcessed env s remote (pulledUnlessDeleted remote) s
  | localWins (localFile : FileInfo) (hf : s.db.find? remote.name = some localFile)
    (hc : isConflict localFile remote = true)
    (hw : remoteWinsConflict localFile remote = false) : FileProcessed env s remote none s
  | mergedLater (localFile : FileInfo) (hf : s.db.find? remote.name = some localFile)
    (hc : isConflict localFile remote = true) (hw : remoteWinsConflict localFile remote = true)
    (ht : isMergeableText remote.name = true) (hname : validateRemoteName remote.name = .ok ()) :
    FileProcessed env s remote (pulledUnlessDeleted remote) ⟨s.db.upsert remote, s.disk⟩
  | renamed (localFile : FileInfo) (disk : Disk)
    (hf : s.db.find? remote.name = some localFile) (hc : isConflict localFile remote = true)
    (hw : remoteWinsConflict localFile remote = true) (ht : isMergeableText remote.name = false)
    (hname : validateRemoteName remote.name = .ok ())
    (hdisk : MovedAway env s.disk remote.name disk) :
    FileProcessed env s remote none ⟨s.db.upsert remote, disk⟩

/-- What a failed file leaves: the records as they were, and the local file moved at most, for a
conflict. -/
def FileFailed (env : IndexEnv) (s : FolderState) (remote : FileInfo) (t : FolderState) : Prop :=
  t.db = s.db ∧ (t.disk = s.disk ∨ validateRemoteName remote.name = .ok () ∧
    (∃ localFile, s.db.find? remote.name = some localFile ∧ isConflict localFile remote = true) ∧
    MovedAway env s.disk remote.name t.disk)

theorem ends_resolveNeeded (hf : s.db.find? remote.name = some localFile)
    (hn : needsUpdate localFile remote = .conflict)
    (hname : validateRemoteName remote.name = .ok ()) :
    Ends (env.resolveNeeded localFile remote) (FileProcessed env s remote)
      (FileFailed env s remote) s := by
  have hlocal : localFile.name = remote.name := KeyedList.key_of_find? hf
  have hself : s.db.upsert localFile = s.db :=
    KeyedList.upsert_self (KeyedList.find?_eq_some_iff.mp hf).1
  have hfailed : FileFailed env s remote s := ⟨rfl, .inl rfl⟩
  unfold resolveNeeded resolveConflict
  simp only [ends_bind, ends_ite, ends_pure, Bool.not_eq_true', Bool.not_eq_false, if_true,
    reduceCtorEq, if_false]
  refine ⟨fun hc => .sameVersion localFile hf hn hc hname, fun hc => ⟨fun hw => ?_, fun hw =>
    ⟨fun ht => ?_, fun ht => ?_⟩⟩⟩
  · refine ends_updateFile ?_ hfailed
    rw [hself]
    exact .localWins localFile hf hc hw
  · exact ends_updateFile (.mergedLater localFile hf hc hw (hlocal ▸ ht) hname) hfailed
  · refine ends_renameConflictFiles.imp (fun _ t ht' => ?_) fun t ht' => ?_
    · obtain ⟨disk, hdisk, rfl⟩ := ht'
      rw [hlocal] at hdisk ht
      exact .renamed localFile disk hf hc hw (by simpa using ht) hname hdisk
    · rw [hlocal] at ht'
      exact ⟨ht'.1, ht'.2.imp_right fun hmoved => ⟨hname, ⟨localFile, hf, hc⟩, hmoved⟩⟩

theorem ends_processFile :
    Ends (env.processFile remote) (FileProcessed env s remote) (FileFailed env s remote) s := by
  have hfailed : FileFailed env s remote s := ⟨rfl, .inl rfl⟩
  unfold processFile
  split
  next e hname =>
    simp only [ends_pure]
    exact .rejected e hname
  next hname =>
    simp only [getFile, ends_bind, ends_require, ends_get, ends_pure]
    refine ⟨fun _ _ => ?_, fun _ _ => hfailed⟩
    split
    next localFile hf =>
      split
      next hn =>
        have hc : isConflict localFile remote = false := by
          unfold isConflict
          rw [(needsUpdate_update_iff.mp hn).2]
          split <;> rfl
        simp only [hc, Bool.false_eq_true, if_false, ends_bind, ends_pure]
        exact ends_updateFile (.updated localFile hf hn hname) hfailed
      next hn =>
        simp only [ends_pure]
        exact .ignored localFile hf hn
      next hn => exact ends_resolveNeeded hf hn hname
    next hf =>
      simp only [ends_ite, ends_bind, ends_pure]
      refine ⟨fun hd => .unknownDeletion hf hd, fun hd => ?_⟩
      exact ends_updateFile (.new hf (by simpa using hd) hname) hfailed

section message
variable {files : List FileInfo} {Q : List FileInfo → FolderState → Prop} {E : FolderState → Prop}

section
variable (h : Ends (collect env.processFile files) Q E s)
include h

/-- What follows the loop over the files only reads. -/
theorem ends_processFiles {full : Bool} (hE : ∀ needed t, Q needed t → E t) :
    Ends (env.processFiles files full) (fun outcome => Q outcome.needed) E s := by
  simp only [processFiles, ends_bind, ends_pure]
  refine h.imp (fun needed t ht => ?_) fun _ => id
  cases full with
  | false => simpa [unpushedFiles] using ht
  | true =>
    simp only [unpushedFiles, getFolderFiles, ends_bind, ends_require, ends_get, ends_pure]
    exact ⟨fun _ _ => ht, fun _ _ => hE needed t ht⟩

theorem ends_handle {full : Bool} (hE : ∀ needed t, Q needed t → E t) (hs : E s) :
    Ends (if full then env.handleIndex files else env.handleIndexUpdate files)
      (fun outcome => Q outcome.needed) E s := by
  cases full with
  | false => exact ends_processFiles h hE
  | true =>
    simp only [if_true, handleIndex, getFolderFiles, ends_bind, ends_require, ends_get, ends_pure]
    exact ⟨fun _ _ => ends_processFiles h hE, fun _ _ => hs⟩

end

end message

end IndexEnv
end Syncthing
