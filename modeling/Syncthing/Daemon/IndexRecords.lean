import Syncthing.Daemon.FolderAuthorization
import Syncthing.Sync.IndexFrame

/-! The database of the daemon, a map from folders and names to records, under index messages. -/
namespace Syncthing

variable {env : SessionEnv} {a : Daemon} {full : Bool} {folder : String} {files : List FileInfo}

/-- The record of a name in a folder. -/
def Daemon.record? (a : Daemon) (folder name : String) : Option FileInfo :=
  (a.folders.find? folder).bind (·.model.folder.db.find? name)

/-- The folder of the message may have accepted records of it, any other is as before. -/
theorem record?_handleIndex (env : SessionEnv) (a : Daemon) (full : Bool) (folder : String)
    (hnodup : (files.map (·.name)).Nodup) (g name : String) :
    (a.handleIndex env full folder files).record? g name = a.record? g name ∨
      g = folder ∧ ∃ f ∈ files, f.name = name ∧ Accepts (a.record? folder name) f ∧
        (a.handleIndex env full folder files).record? g name = some f := by
  unfold Daemon.record? Daemon.handleIndex
  cases hf : a.folders.find? folder with
  | none => exact .inl rfl
  | some served =>
    obtain ⟨-, hid⟩ := KeyedList.find?_eq_some_iff.mp hf
    simp only [KeyedList.find?_upsert, hid]
    by_cases hg : folder = g
    · subst hg
      simp only [if_true, hf, Option.bind_some]
      exact (replaced_indexMessage hnodup name).imp_right fun h => ⟨trivial, h⟩
    · simp only [if_neg hg]
      exact .inl trivial

/-- An index with distinct names changes no record of a name it does not have; it deletes a live
record only by a newer deletion of that very name, or a concurrent one that wins; it makes no
record of a deletion of a name that had none, and none under a name that is not valid. -/
theorem index_changes_only_what_it_names (hnodup : (files.map (·.name)).Nodup) :
    let b := a.handleIndex env full folder files
    (∀ g name, (g ≠ folder ∨ ∀ f ∈ files, f.name ≠ name) → b.record? g name = a.record? g name) ∧
    (∀ name r r', a.record? folder name = some r → r.isDeleted = false →
      b.record? folder name = some r' → r'.isDeleted = true →
      ∃ f ∈ files, f.name = name ∧ f.isDeleted = true ∧
        (r.version.get < f.version.get ∨
          isConflict r f = true ∧ remoteWinsConflict r f = true)) ∧
    (∀ f ∈ files, f.isDeleted = true → a.record? folder f.name = none →
      b.record? folder f.name = none) ∧
    ∀ name e, validateRemoteName name = .error e →
      b.record? folder name = a.record? folder name := by
  have hrecord := record?_handleIndex env a full folder hnodup
  refine ⟨fun g name hother => ?_, fun name r r' hr hlive hr' hdeleted => ?_,
    fun f hf hdeleted hnone => ?_, fun name e hinvalid => ?_⟩
  · rcases hrecord g name with h | ⟨hg, f, hf, hname, -⟩
    · exact h
    · rcases hother with hother | hother
      · exact absurd hg hother
      · exact absurd hname (hother f hf)
  · rcases hrecord folder name with h | ⟨-, f, hf, rfl, haccepts, h⟩
    · rw [h, hr] at hr'
      cases hr'
      simp [hlive] at hdeleted
    · obtain rfl := Option.some.inj (h.symm.trans hr')
      rw [hr] at haccepts
      exact ⟨f, hf, rfl, hdeleted, haccepts.2⟩
  · rcases hrecord folder f.name with h | ⟨-, g, hg, hname, haccepts, -⟩
    · exact h.trans hnone
    · obtain rfl : g = f := List.inj_on_of_nodup_map hnodup hg hf hname
      rw [hnone] at haccepts
      have hlive : g.isDeleted = false := haccepts.2
      simp [hlive] at hdeleted
  · rcases hrecord folder name with h | ⟨-, f, hf, rfl, haccepts, -⟩
    · exact h
    · rw [haccepts.1] at hinvalid
      cases hinvalid

/-- A folder that records the first version of `x` of a peer. -/
def recordedFolder : Daemon where
  localDeviceId := none
  folders := KeyedList.empty.upsert
    ⟨⟨"f", none, []⟩, idleFolder (KeyedList.empty.upsert (peerVersion 1 7)) .empty⟩

def secondDeletion : FileInfo := { peerVersion 2 8 with deleted := some true }

/-- The peer deletes its second version. -/
theorem index_changes_only_what_it_names_deletion :
    let b := recordedFolder.handleIndex calmSession true "f" [secondDeletion]
    b.record? "f" "x" = some secondDeletion ∧
      ∃ f ∈ [secondDeletion], f.name = "x" ∧ f.isDeleted = true ∧
        ((peerVersion 1 7).version.get < f.version.get ∨
          isConflict (peerVersion 1 7) f = true ∧ remoteWinsConflict (peerVersion 1 7) f = true) := by
  intro b
  have hb : b.record? "f" "x" = some secondDeletion := by decide
  have hnodup : ([secondDeletion].map (·.name)).Nodup := by decide
  obtain ⟨-, hdeleted, -⟩ := index_changes_only_what_it_names (a := recordedFolder) hnodup
  exact ⟨hb, hdeleted "x" (peerVersion 1 7) secondDeletion (by decide) (by decide) hb (by decide)⟩

end Syncthing
