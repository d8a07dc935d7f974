import Syncthing.Sync.IndexFrame
import Syncthing.Sync.LocalEdits
import Syncthing.Sync.RecordedVersions

/-! A scan first finds what changed and then stores it, record by record. -/
namespace Syncthing

open Program KeyedList

namespace ScanEnv

variable (env : ScanEnv) (d : Disk)

/-- `scan_folder_at` up to where it stores what it found. -/
def findChanges (sub : Option String) : ScanM (List FileInfo) := do
  if sub.any isDefaultIgnoredPath then return []
  let root := (sub.map namePath).getD []
  require (env.checkRoot d root)
  if sub.any fun s => isIgnoredWithAncestors env.matcher s true then return []
  let files ← require (env.scanDirectory d (d.depth + 1) root (sub.getD ""))
  let deleted ← env.scanDeletions d sub
  let compared ← collect env.compareFile files
  return orderChanged sub (deleted ++ compared)

/-- `scan_incremental` up to where it stores what it found. -/
def findDirty (pullInFlight : Bool) (changes deletes : List String) :
    ScanM (List FileInfo) := do
  let changed ← concat (env.scanDirtyChange d pullInFlight) changes
  let deleted ← concat (env.scanDirtyDelete d) deletes
  return (detectAndReorderRenames (changed ++ deleted)).map clearDeletedBlocks

variable (search : ScanM (List FileInfo))

/-- Stores what a search finds, and returns it. -/
def storing : ScanM (List FileInfo) := do
  let changed ← search
  changed.forM env.updateFile
  return changed

/-- The records that are stored before the first failure. -/
def storable (changed : List FileInfo) : List FileInfo :=
  changed.takeWhile fun f => (env.fault (.dbUpdate f.name)).isNone

/-- What is stored of what a search finds. -/
def stored (s : ScanState) : List FileInfo := env.storable ((result? search s).getD [])

variable {env : ScanEnv} {d : Disk} {sub : Option String} {s : ScanState}
  {search : ScanM (List FileInfo)} {inFlight : Bool} {changes deletes : List String}

theorem after_forM_updateFile {changed : List FileInfo} : after (changed.forM env.updateFile) s =
      ⟨s.db.upsertAll (env.storable changed), s.sequence⟩ := by
  induction changed generalizing s with
  | nil => rfl
  | cons f changed ih =>
    change after (env.updateFile f >>= fun _ => changed.forM env.updateFile) s = _
    cases hf : env.fault (.dbUpdate f.name) with
    | some e =>
      have hfails : env.updateFile f s = .error (.database e) s := by
        simp only [updateFile, check, hf, require]
        rfl
      simp [after, bind, EStateM.bind, hfails, storable, hf]
    | none =>
      have hok : env.updateFile f s = .ok ⟨⟩ { s with db := s.db.upsert f } := by
        simp [updateFile, check, hf, require]
        rfl
      have hnext := @ih { s with db := s.db.upsert f }
      have hhead : env.storable (f :: changed) = f :: env.storable changed := by simp [storable, hf]
      rw [hhead, upsertAll_cons, ← hnext]
      simp only [after, bind, EStateM.bind, hok]

theorem after_storing : after (env.storing search) s =
    ⟨(after search s).db.upsertAll (env.stored search s), (after search s).sequence⟩ := by
  unfold storing stored
  cases hs : search s with
  | error e t => simp [after, result?, bind, EStateM.bind, hs, storable]
  | ok changed t =>
    have h := @after_forM_updateFile env t changed
    simp only [after, result?, bind, EStateM.bind, hs, Option.getD_some] at h ⊢
    cases hforM : changed.forM env.updateFile t <;> simpa [hforM, pure, EStateM.pure] using h

theorem scanFolderAt_eq : env.scanFolderAt d sub = env.storing (env.findChanges d sub) := by
  unfold scanFolderAt storing findChanges
  by_cases hignored : sub.any isDefaultIgnoredPath = true
  · simp only [hignored, if_true, pure_bind]
    rfl
  · by_cases hmatched : (sub.any fun s => isIgnoredWithAncestors env.matcher s true) = true
    · simp only [hignored, hmatched, Bool.false_eq_true, if_false, if_true, bind_assoc, pure_bind]
      rfl
    · simp only [hignored, hmatched, Bool.false_eq_true, if_false, bind_assoc, pure_bind]

theorem scanIncremental_eq : env.scanIncremental d inFlight changes deletes =
      env.storing (env.findDirty d inFlight changes deletes) := by
  unfold scanIncremental storing findDirty
  simp only [bind_assoc, pure_bind]

end ScanEnv

end Syncthing
