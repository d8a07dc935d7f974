import Syncthing.Sync.FolderModel

/-! Which records an index can change, and to what. -/
namespace Syncthing

open Program List

variable {env : IndexEnv} {s t : FolderState} {files more : List FileInfo} {f r remote : FileInfo}
  {name : String}

/-- A remote record replaces what is recorded under its name: nothing, if it is not a deletion; an
older record; or a concurrent one that loses the arbitration. -/
def Accepts (recorded : Option FileInfo) (remote : FileInfo) : Prop :=
  validateRemoteName remote.name = .ok () ∧
    match recorded with
    | none => remote.isDeleted = false
    | some r => r.version.get < remote.version.get ∨
        isConflict r remote = true ∧ remoteWinsConflict r remote = true

theorem lt_of_needsUpdate (h : needsUpdate r remote = .update) :
    r.version.get < remote.version.get := by
  obtain ⟨hnot, hle⟩ := needsUpdate_update_iff.mp h
  refine lt_of_le_not_ge (Vector.dominates_iff.mp hle) fun hge => ?_
  rw [Vector.dominates_iff.mpr hge] at hnot
  cases hnot

/-- A file of an index leaves the records as they are or replaces the one of its name. -/
theorem IndexEnv.FileProcessed.db_eq {out : Option FileInfo}
    (h : FileProcessed env s remote out t) :
    t.db = s.db ∨ t.db = s.db.upsert remote ∧ Accepts (s.db.find? remote.name) remote := by
  cases h with
  | rejected | unknownDeletion | ignored | sameVersion | localWins => exact .inl rfl
  | new hf hd hname => exact .inr ⟨rfl, hname, by simpa [hf] using hd⟩
  | updated localFile hf hn hname =>
    exact .inr ⟨rfl, hname, by simpa [hf] using .inl (lt_of_needsUpdate hn)⟩
  | mergedLater localFile hf hc hw ht hname | renamed localFile disk hf hc hw ht hname hdisk =>
    exact .inr ⟨rfl, hname, by simpa [hf] using .inr ⟨hc, hw⟩⟩

/-- Every record is the old one or an accepted one of the list. -/
def Replaced (old new : FolderFiles) (files : List FileInfo) : Prop :=
  ∀ name, new.find? name = old.find? name ∨
    ∃ f ∈ files, f.name = name ∧ Accepts (old.find? name) f ∧ new.find? name = some f

namespace Replaced

theorem refl (db : FolderFiles) (files : List FileInfo) : Replaced db db files := fun _ => .inl rfl

theorem of_mem {old new : FolderFiles} (hf : f ∈ files)
    (h : new = old ∨ new = old.upsert f ∧ Accepts (old.find? f.name) f) :
    Replaced old new files := by
  rcases h with rfl | ⟨rfl, ha⟩
  · exact refl _ _
  · intro name
    rw [KeyedList.find?_upsert]
    split
    next hname => exact .inr ⟨f, hf, hname, hname ▸ ha, rfl⟩
    · exact .inl rfl

/-- Lists without a common name do not meet at a record. -/
theorem trans {a b c : FolderFiles} (hab : Replaced a b files)
    (hbc : Replaced b c more) (hdisjoint : ∀ f ∈ files, ∀ g ∈ more, f.name ≠ g.name) :
    Replaced a c (files ++ more) := by
  intro name
  rcases hbc name with hc | ⟨g, hg, hname, ha, hc⟩
  · rcases hab name with hb | ⟨f, hf, hname, ha, hb⟩
    · exact .inl (hc.trans hb)
    · exact .inr ⟨f, mem_append_left _ hf, hname, ha, hc.trans hb⟩
  · rcases hab name with hb | ⟨f, hf, hname', -, -⟩
    · exact .inr ⟨g, mem_append_right _ hg, hname, hb ▸ ha, hc⟩
    · exact absurd (hname'.trans hname.symm) (hdisjoint f hf g hg)

end Replaced

/-- The loop over the files, by induction on the files that are left. -/
theorem ends_collect_replaced (hnodup : (files.map (·.name)).Nodup) :
    Ends (collect env.processFile files) (fun _ t => Replaced s.db t.db files)
      (fun t => Replaced s.db t.db files) s := by
  induction files generalizing s with
  | nil => simpa [collect] using Replaced.refl s.db []
  | cons f files ih =>
    rw [map_cons, nodup_cons] at hnodup
    simp only [collect, ends_bind, ends_pure]
    refine IndexEnv.ends_processFile.imp (fun out t ht => ?_) fun t ht => ?_
    · have hone : Replaced s.db t.db [f] := .of_mem mem_cons_self ht.db_eq
      have hnext : ∀ {u : FolderState}, Replaced t.db u.db files →
          Replaced s.db u.db (f :: files) := by
        refine fun hu => hone.trans hu fun x hx g hg he => hnodup.1 ?_
        rw [mem_singleton] at hx
        exact hx ▸ he ▸ mem_map_of_mem hg
      exact (ih hnodup.2).imp (fun _ _ => hnext) fun _ => hnext
    · exact .of_mem mem_cons_self (.inl ht.1)

theorem replaced_indexMessage {m : FolderModel} {full : Bool}
    (hnodup : (files.map (·.name)).Nodup) :
    Replaced m.folder.db (m.indexMessage env full files).folder.db files :=
  FolderModel.indexMessage_of_ends (fun m' => Replaced m.folder.db m'.folder.db files)
    (IndexEnv.ends_handle (ends_collect_replaced hnodup) (fun _ _ => id) (.refl _ _))

end Syncthing
