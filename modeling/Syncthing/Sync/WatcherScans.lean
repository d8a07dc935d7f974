import Syncthing.Sync.QuiescentScans

/-! An incremental scan of the paths the watcher reports, against a full scan of the same disk. -/
namespace Syncthing

open Program ScanEnv Disk KeyedList
open List hiding concat

variable {env : ScanEnv} {d : Disk} {db : FolderFiles} {s : ScanState} {file x r : FileInfo}
  {name relative : String} {hashes : List Bytes} {content : Bytes} {inFlight : Bool}
  {changes deletes dir : List String} {stored : List FileInfo} {fault : ScanStep → Option IoError}
  {db' : FolderFiles}
  {files : List FileInfo}

/-- A full scan comes to something it calls by the name. -/
def ScanEnv.Indexes (env : ScanEnv) (d : Disk) (name : String) : Prop :=
  ∃ path node, env.Visits d [] "" path name node

/-- What an incremental scan looks at because of a changed path, once the path has passed its
checks: the file there, or what a walk of the directory there comes to. Links are followed. -/
inductive ScanEnv.LooksAt (env : ScanEnv) (d : Disk) (relative : String) :
    String → List Bytes → Prop where
  | file {content : Bytes} (hread : d.read? (namePath relative) = some content)
    (hmetadata : isDefaultIgnoredPath relative = false)
    (hignored : isIgnoredWithAncestors env.matcher relative false = false) :
    LooksAt env d relative relative ((contentBlocks env.sha256 content).map (·.hash))
  | walk {path : List String} {name : String} {node : DiskNode}
    (hdir : d.isDir (namePath relative) = true) (hmetadata : isDefaultIgnoredPath relative = false)
    (hignored : isIgnoredWithAncestors env.matcher relative true = false)
    (hvisits : env.Visits d (namePath relative) relative path name node) :
    LooksAt env d relative name (nodeHashes env.sha256 node)

/-- The name is recorded with these block hashes. -/
def Recorded (db : FolderFiles) (name : String) (hashes : List Bytes) : Prop :=
  ∃ old, db.find? name = some old ∧ old.blockHashes = hashes

variable (env) (d)

/-- A record a scan may store: of a name that a full scan indexes, or a deletion of a name that is
recorded already. -/
def Indexable (db : FolderFiles) (r : FileInfo) : Prop :=
  env.Indexes d r.name ∨ (r.isDeleted = true ∧ ∃ old ∈ db.entries, old.name = r.name)

/-- Whichever calls fail, an incremental scan stores and reports indexable records only. -/
def StoresIndexable (inFlight : Bool) (changes deletes : List String) (s : ScanState) : Prop :=
  ∀ fault, Ends (ScanEnv.scanIncremental { env with fault } d inFlight changes deletes)
    (fun out t => (∀ r ∈ out, Indexable env d s.db r) ∧
      ∀ r ∈ t.db.entries, r ∈ s.db.entries ∨ Indexable env d s.db r)
    (fun t => ∀ r ∈ t.db.entries, r ∈ s.db.entries ∨ Indexable env d s.db r) s

/-- Everything an incremental scan looks at is indexed by a full scan, or is recorded as it is. -/
def LooksAtIndexed (changes : List String) (db : FolderFiles) : Prop :=
  ∀ relative ∈ changes, ∀ name hashes, env.LooksAt d relative name hashes →
    env.Indexes d name ∨ Recorded db name hashes

variable {env} {d}

/-- A live record of something an incremental scan looks at and that was not recorded so. -/
def Sourced (env : ScanEnv) (d : Disk) (relative : String) (db : FolderFiles) (x : FileInfo) :
    Prop :=
  x.isDeleted = false ∧ ∃ hashes, env.LooksAt d relative x.name hashes ∧ ¬ Recorded db x.name hashes

theorem unrecorded_of_compared (h : Compared env db file x) : x.name = file.name ∧
    x.isDeleted = file.isDeleted ∧ ¬ Recorded db file.name file.blockHashes := by
  unfold Compared at h
  cases hfind : db.find? file.name with
  | none =>
    simp only [hfind] at h
    obtain ⟨sequence, rfl⟩ := h
    refine ⟨rfl, rfl, ?_⟩
    rintro ⟨old, hold, -⟩
    rw [hfind] at hold
    cases hold
  | some existing =>
    simp only [hfind] at h
    obtain ⟨hne, sequence, rfl⟩ := h
    refine ⟨rfl, rfl, ?_⟩
    rintro ⟨old, hold, hhashes⟩
    rw [hfind] at hold
    cases hold
    exact hne hhashes

theorem sourced_of_compared (h : Compared env db file x) (hlive : file.isDeleted = false)
    (hlooks : env.LooksAt d relative file.name file.blockHashes) : Sourced env d relative db x := by
  obtain ⟨hname, hdeleted, hnot⟩ := unrecorded_of_compared h
  refine ⟨hdeleted.trans hlive, file.blockHashes, ?_, ?_⟩
  · rwa [hname]
  · rwa [hname]

theorem clearDeletedBlocks_of_live (h : x.isDeleted = false) : clearDeletedBlocks x = x := by
  simp [clearDeletedBlocks, h]

namespace ScanEnv

/-- A changed file is left out, or it is compared as it is on disk. -/
theorem scanChangedFile_of_read (env : ScanEnv)
    (hread : d.read? (namePath relative) = some content) :
    env.scanChangedFile d relative = pure none ∧ (isDefaultIgnoredPath relative = true ∨
        isIgnoredWithAncestors env.matcher relative false = true) ∨
      isDefaultIgnoredPath relative = false ∧
        isIgnoredWithAncestors env.matcher relative false = false ∧
        ∃ modified, env.scanChangedFile d relative =
          require (env.scanFile (namePath relative) relative content modified) >>=
            env.compareFile := by
  unfold scanChangedFile
  split
  next hmetadata => exact .inl ⟨rfl, .inl hmetadata⟩
  next hmetadata =>
    split
    next hignored => exact .inl ⟨rfl, .inr hignored⟩
    next hignored =>
      refine .inr ⟨(Bool.not_eq_true _).mp hmetadata, (Bool.not_eq_true _).mp hignored, ?_⟩
      unfold read? at hread
      split at hread
      next hnode =>
        cases hread
        simp only [hnode]
        exact ⟨_, rfl⟩
      next hnode =>
        cases hread
        simp only [hnode]
        exact ⟨_, rfl⟩
      · cases hread

/-- A changed file is pushed unless it is recorded as it is. -/
theorem ends_scanChangedFile_file (hread : d.read? (namePath relative) = some content) :
    Ends (env.scanChangedFile d relative)
      (fun out t => t.db = s.db ∧ (∀ x ∈ out, Sourced env d relative s.db x) ∧
        ∀ name hashes, env.LooksAt d relative name hashes →
          Recorded s.db name hashes ∨ ∃ x ∈ out, x.name = name)
      (fun t => t.db = s.db ∧ env.Fails []) s := by
  have hdir := isDir_of_read? hread
  rcases scanChangedFile_of_read env hread with ⟨hscan, hskip⟩ | ⟨hmetadata, hignored, modified, hscan⟩
  · rw [hscan, ends_pure]
    refine ⟨rfl, by simp, fun name hashes hlooks => ?_⟩
    cases hlooks with
    | file _ hmetadata hignored => simp [hmetadata, hignored] at hskip
    | walk hdir' =>
      rw [hdir] at hdir'
      cases hdir'
  · rw [hscan]
    simp only [ends_bind, ends_require]
    refine ⟨fun file hfile => ?_, fun _ herror => ⟨trivial, fails_of_scanFile nil_prefix herror⟩⟩
    obtain rfl := scanFile_ok hfile
    have hlooks : env.LooksAt d relative relative ((contentBlocks env.sha256 content).map (·.hash)) :=
      .file hread hmetadata hignored
    refine ends_compareFile.imp (fun out t h => ⟨h.1, fun x hx => ?_, ?_⟩) fun _ h => ⟨h.1, h.2 []⟩
    · cases hx
      exact sourced_of_compared h.2 rfl hlooks
    · intro name hashes hlooks'
      cases hlooks' with
      | walk hdir' =>
        rw [hdir] at hdir'
        cases hdir'
      | file hread' =>
        rw [hread] at hread'
        cases hread'
        cases out with
        | none => exact .inl h.2
        | some x => exact .inr ⟨x, rfl, (unrecorded_of_compared h.2).1⟩

/-- The end of a sub-scan: it stores what is not recorded as it was found, or some of it if it
fails. -/
theorem ends_storeCompared {P : FileInfo → Prop} (hlive : ∀ file ∈ files, file.isDeleted = false)
    (hP : ∀ file ∈ files, ∀ x, Compared env s.db file x → P x) :
    Ends (do
        let compared ← collect env.compareFile files
        (orderChanged (some relative) compared).forM env.updateFile
        return orderChanged (some relative) compared)
      (fun out t => t.db = s.db.upsertAll out ∧ (∀ x ∈ out, P x) ∧
        ∀ file ∈ files, Recorded s.db file.name file.blockHashes ∨ ∃ x ∈ out, x.name = file.name)
      (fun t => env.Fails dir ∧ ∃ stored, t.db = s.db.upsertAll stored ∧ ∀ x ∈ stored, P x) s := by
  simp only [ends_bind, ends_pure]
  refine (ends_collect_complete (E := fun t => t.db = s.db ∧ ∀ dir, env.Fails dir)
    (fun t : ScanState => t.db = s.db) _ (fun _ _ _ ht => ht ▸ ends_compareFile) rfl).imp
    (fun compared t ht => ?_) fun t ht => ⟨ht.2 dir, [], ht.1, by simp⟩
  obtain ⟨htdb, hfound, hchanged⟩ := ht
  have hout : ∀ x ∈ orderChanged (some relative) compared, P x := by
    intro r hr
    obtain ⟨x, hx, rfl⟩ := mem_orderChanged.mp hr
    obtain ⟨file, hfile, hc⟩ := hfound x hx
    rw [clearDeletedBlocks_of_live ((unrecorded_of_compared hc).2.1.trans (hlive file hfile))]
    exact hP file hfile x hc
  refine ends_forM_updateFile.imp (fun _ u hu => ?_) fun u hu => ?_
  · refine ⟨htdb ▸ hu, hout, fun file hfile => ?_⟩
    refine (hchanged file hfile).imp_right ?_
    rintro ⟨x, hx, hc⟩
    refine ⟨_, mem_orderChanged.mpr ⟨x, hx, rfl⟩, ?_⟩
    rw [name_clearDeletedBlocks, (unrecorded_of_compared hc).1]
  · obtain ⟨hfails, stored, hinitial, hu⟩ := hu
    exact ⟨hfails dir, stored, htdb ▸ hu, fun x hx => hout x (hinitial.subset hx)⟩

/-- A sub-scan of a directory stores and pushes what it comes to, unless it is recorded as it is. -/
theorem ends_subScan (hdir : d.isDir (namePath relative) = true) :
    Ends (env.scanFolderAt d (some relative))
      (fun out t => t.db = s.db.upsertAll out ∧ (∀ x ∈ out, Sourced env d relative s.db x) ∧
        ∀ name hashes, env.LooksAt d relative name hashes →
          Recorded s.db name hashes ∨ ∃ x ∈ out, x.name = name)
      (fun t => env.Fails [] ∧ ∃ stored, t.db = s.db.upsertAll stored ∧
        ∀ x ∈ stored, Sourced env d relative s.db x) s := by
  have hnothing : ∃ stored, s.db = s.db.upsertAll stored ∧
      ∀ x ∈ stored, Sourced env d relative s.db x := ⟨[], rfl, by simp⟩
  unfold scanFolderAt scanDeletions
  simp only [ends_ite, ends_bind, ends_pure, ends_require, Option.any_some, Option.map_some,
    Option.getD_some, nil_append]
  refine ⟨fun hmetadata => ⟨rfl, by simp, fun name hashes hlooks => ?_⟩, fun hmetadata =>
    ⟨fun _ _ => ⟨fun hignored => ⟨rfl, by simp, fun name hashes hlooks => ?_⟩, fun hignored =>
      ⟨fun files hfiles => ?_, fun _ herror => 
        ⟨(fails_of_scanDirectory herror).mono nil_prefix, hnothing⟩⟩⟩,
      fun _ herror => ?_⟩⟩
  · cases hlooks with
    | file _ hnot | walk _ hnot =>
      rw [hmetadata] at hnot
      cases hnot
  · cases hlooks with
    | file hread =>
      rw [isDir_of_read? hread] at hdir
      cases hdir
    | walk _ _ hnot =>
      rw [hignored] at hnot
      cases hnot
  · rw [Bool.not_eq_true] at hmetadata hignored
    have hsourced : ∀ file ∈ files, ∀ x, Compared env s.db file x →
        Sourced env d relative s.db x := by
      intro file hfile x hc
      obtain ⟨path, name, node, hvisits, rfl⟩ := (mem_scanDirectory_depth_iff hfiles).mp hfile
      have hlooks : env.LooksAt d relative name (nodeHashes env.sha256 node) :=
        .walk hdir hmetadata hignored hvisits
      exact sourced_of_compared hc isDeleted_scannedEntry (by simpa using hlooks)
    have hstore := @ends_storeCompared env s relative [] _ _ (live_of_scanDirectory hfiles) hsourced
    simp only [ends_bind, ends_pure] at hstore
    refine hstore.imp (fun compared t ht => ht.imp (fun _ u hu => ?_) fun _ => id) fun _ => id
    obtain ⟨hudb, hfound, hchanged⟩ := hu
    refine ⟨hudb, hfound, fun name hashes hlooks => ?_⟩
    cases hlooks with
    | file hread =>
      rw [isDir_of_read? hread] at hdir
      cases hdir
    | walk _ _ _ hvisits =>
      have hfile := (mem_scanDirectory_depth_iff hfiles).mpr ⟨_, name, _, hvisits, rfl⟩
      simpa using hchanged _ hfile
  · unfold checkRoot at herror
    have hexists : d.pathExists (namePath relative) = true := by
      unfold isDir at hdir
      unfold pathExists
      split at hdir
      next hnode => rw [hnode]
      next hnode =>
        rw [hnode]
        rfl
      · cases hdir
    simp [hexists, hdir] at herror

/-- A deletion of a recorded name. -/
def Deletes (db : FolderFiles) (x : FileInfo) : Prop :=
  x.isDeleted = true ∧ ∃ old ∈ db.entries, old.name = x.name

theorem ends_markDeletedSubtree_deletes : Ends (env.markDeletedSubtree d relative)
      (fun out t => t.db = s.db ∧ ∀ x ∈ out, Deletes s.db x) (fun t => t.db = s.db) s := by
  refine ends_markDeletedSubtree_mem.imp (fun out t h => ⟨h.1, fun x hx => ?_⟩) fun _ => id
  obtain ⟨old, hold, sequence, rfl⟩ := h.2 x hx
  exact ⟨rfl, old, hold, rfl⟩

theorem ends_scanDirtyDelete_deletes : Ends (env.scanDirtyDelete d relative)
      (fun out t => t.db = s.db ∧ ∀ x ∈ out, Deletes s.db x) (fun _ => False) s := by
  unfold scanDirtyDelete
  simp only [ends_ite, ends_pure, ends_logged]
  exact ⟨fun _ => ⟨trivial, by simp⟩, fun _ => ends_markDeletedSubtree_deletes.imp (fun _ _ => id)
    fun t ht => ⟨ht, by simp⟩⟩

/-- What an incremental scan of a changed path has stored and pushed. -/
structure DirtyChange (env : ScanEnv) (d : Disk) (relative : String) (db db' : FolderFiles)
    (stored out : List FileInfo) : Prop where
  stored_eq : db' = db.upsertAll stored
  sourced : ∀ x ∈ stored, Sourced env d relative db x
  pushed : ∀ x ∈ out, Sourced env d relative db x ∨ Deletes db' x
  complete : env.Fails [] ∨ (∀ x ∈ stored, x ∈ out) ∧ ∀ name hashes,
    env.LooksAt d relative name hashes → Recorded db name hashes ∨
      ∃ x ∈ out, x.name = name ∧ x.isDeleted = false

theorem ends_scanDirtyChange : Ends (env.scanDirtyChange d inFlight relative)
      (fun out t => ∃ stored, DirtyChange env d relative s.db t.db stored out)
      (fun _ => False) s := by
  refine scanDirtyChange_cases (P := (Ends · _ _ _)) (fun hread hnot => ?_) (fun hdir => ?_)
    fun content hread => ?_
  · rw [ends_pure]
    refine ⟨[], rfl, by simp, by simp, .inr ⟨by simp, fun name hashes hlooks => ?_⟩⟩
    cases hlooks with
    | file hread' =>
      rw [hread] at hread'
      cases hread'
    | walk hdir' =>
      rw [hnot] at hdir'
      cases hdir'
  · simp only [ends_bind, ends_logged, ends_ite, ends_pure]
    -- the deletions come behind what the sub-scan pushed
    have hrest : ∀ (stored files : List FileInfo) (t : ScanState),
        DirtyChange env d relative s.db t.db stored files →
        Ends (env.markDeletedSubtree d relative)
          (fun deleted u => ∃ stored, DirtyChange env d relative s.db u.db stored (files ++ deleted))
          (fun u => ∃ stored, DirtyChange env d relative s.db u.db stored (files ++ [])) t := by
      intro stored files t h
      refine ends_markDeletedSubtree_deletes.imp (fun deleted u hu => ?_) fun u hu => ?_
      · refine ⟨stored, hu.1 ▸ h.stored_eq, h.sourced, fun x hx => ?_, ?_⟩
        · rcases List.mem_append.mp hx with hx | hx
          · exact hu.1 ▸ h.pushed x hx
          · exact .inr (hu.1 ▸ hu.2 x hx)
        · refine h.complete.imp_right fun ⟨hstored, hlooks⟩ =>
            ⟨fun x hx => mem_append_left _ (hstored x hx), fun name hashes h => ?_⟩
          refine (hlooks name hashes h).imp_right ?_
          rintro ⟨x, hx, hname⟩
          exact ⟨x, mem_append_left _ hx, hname⟩
      · rw [append_nil, hu]
        exact ⟨stored, h⟩
    refine (ends_subScan hdir).imp (fun files t h => ?_) fun t h => ?_
    · obtain ⟨htdb, hsourced, hcomplete⟩ := h
      have hchange : DirtyChange env d relative s.db t.db files files :=
        ⟨htdb, hsourced, fun x hx => .inl (hsourced x hx), .inr ⟨fun _ => id,
          fun name hashes hlooks => (hcomplete name hashes hlooks).imp_right
            fun ⟨x, hx, hname⟩ => ⟨x, hx, hname, (hsourced x hx).1⟩⟩⟩
      exact ⟨fun _ => ⟨files, hchange⟩, fun _ => hrest files files t hchange⟩
    · obtain ⟨hfails, stored, htdb, hsourced⟩ := h
      have hchange : DirtyChange env d relative s.db t.db stored [] :=
        ⟨htdb, hsourced, by simp, .inl hfails⟩
      exact ⟨fun _ => ⟨stored, hchange⟩, fun _ => hrest stored [] t hchange⟩
  · simp only [ends_logged, ends_bind, ends_pure]
    refine (ends_scanChangedFile_file hread).imp (fun out t h => ?_) fun t h => ?_
    · obtain ⟨htdb, hsourced, hcomplete⟩ := h
      refine ⟨[], htdb, by simp, fun x hx => .inl (hsourced x (by simpa using hx)),
        .inr ⟨by simp, fun name hashes hlooks => ?_⟩⟩
      refine (hcomplete name hashes hlooks).imp_right ?_
      rintro ⟨x, hx, hname⟩
      exact ⟨x, by simpa using hx, hname, (hsourced x hx).1⟩
    · exact ⟨[], h.1, by simp, by simp, .inl h.2⟩

end ScanEnv

/-- So far only indexed names have been stored. -/
def OnlyIndexed (env : ScanEnv) (d : Disk) (db db' : FolderFiles) : Prop :=
  ∀ name, ¬ env.Indexes d name → db'.find? name = db.find? name

section
variable (h : OnlyIndexed env d db db')
include h

theorem OnlyIndexed.indexable_of_deletes (hx : Deletes db' x) : Indexable env d db x := by
  by_cases hindexed : env.Indexes d x.name
  · exact .inl hindexed
  · obtain ⟨hdeleted, old, hold, hname⟩ := hx
    refine .inr ⟨hdeleted, old, ?_, hname⟩
    have hfind := h x.name hindexed
    rw [← hname, find?_key hold] at hfind
    exact (find?_eq_some_iff.mp hfind.symm).1

theorem OnlyIndexed.upsertAll (hstored : ∀ x ∈ stored, env.Indexes d x.name) :
    OnlyIndexed env d db (db'.upsertAll stored) := by
  intro name hname
  rw [find?_upsertAll_of_notMem]
  · exact h name hname
  · rintro x hx rfl
    exact hname (hstored x hx)

/-- Storing indexable records at the end of the scan. -/
theorem OnlyIndexed.indexable_upsertAll (hstored : ∀ x ∈ stored, Indexable env d db x) :
    ∀ r ∈ (db'.upsertAll stored).entries, r ∈ db.entries ∨ Indexable env d db r := by
  intro r hr
  have hfind := find?_key hr
  rw [find?_upsertAll] at hfind
  cases hlast : stored.reverse.find? fun a => a.name = r.name with
  | some x =>
    rw [hlast] at hfind
    cases hfind
    exact .inr (hstored _ (by simpa using mem_of_find?_eq_some hlast))
  | none =>
    rw [hlast] at hfind
    by_cases hindexed : env.Indexes d r.name
    · exact .inr (.inl hindexed)
    · have hold : db'.find? r.name = some r := hfind
      rw [h r.name hindexed] at hold
      exact .inl (find?_eq_some_iff.mp hold).1

/-- What is stored because of a changed path is indexed. -/
theorem indexes_of_sourced (hlooks : ∀ name hashes, env.LooksAt d relative name hashes →
      env.Indexes d name ∨ Recorded db name hashes)
    (hx : Sourced env d relative db' x) : env.Indexes d x.name := by
  obtain ⟨-, hashes, hlook, hnot⟩ := hx
  rcases hlooks x.name hashes hlook with hindexed | ⟨old, hold, hhashes⟩
  · exact hindexed
  · by_contra hindexed
    exact hnot ⟨old, by rw [h x.name hindexed, hold], hhashes⟩

end

theorem ends_scanIncremental_indexable (hlooks : LooksAtIndexed env d changes s.db) :
    Ends (env.scanIncremental d inFlight changes deletes)
      (fun out t => (∀ r ∈ out, Indexable env d s.db r) ∧
        ∀ r ∈ t.db.entries, r ∈ s.db.entries ∨ Indexable env d s.db r)
      (fun t => ∀ r ∈ t.db.entries, r ∈ s.db.entries ∨ Indexable env d s.db r) s := by
  unfold scanIncremental
  simp only [ends_bind, ends_pure]
  refine (ends_concat (fun t : ScanState => OnlyIndexed env d s.db t.db) (Indexable env d s.db)
    (fun relative hrelative t ht => ?_) fun _ _ => rfl).imp (fun changed t ht => ?_) fun _ => id
  · refine ends_scanDirtyChange.imp (fun out u hu => ?_) fun _ => False.elim
    obtain ⟨stored, h⟩ := hu
    have hstored : OnlyIndexed env d s.db u.db := h.stored_eq ▸ ht.upsertAll fun x hx =>
      indexes_of_sourced ht (hlooks relative hrelative) (h.sourced x hx)
    refine ⟨hstored, fun x hx => ?_⟩
    rcases h.pushed x hx with hx | hx
    · exact .inl (indexes_of_sourced ht (hlooks relative hrelative) hx)
    · exact hstored.indexable_of_deletes hx
  obtain ⟨ht, hchanged⟩ := ht
  refine (ends_concat (fun t : ScanState => OnlyIndexed env d s.db t.db) (Indexable env d s.db)
    (fun relative _ t ht => ?_) ht).imp (fun deleted u hu => ?_) fun _ => id
  · refine ends_scanDirtyDelete_deletes.imp (fun out u hu => ?_) fun _ => False.elim
    exact ⟨hu.1 ▸ ht, fun x hx => ht.indexable_of_deletes (hu.2 x hx)⟩
  obtain ⟨hu, hdeleted⟩ := hu
  have hout : ∀ r ∈ (detectAndReorderRenames (changed ++ deleted)).map clearDeletedBlocks,
      Indexable env d s.db r := by
    intro r hr
    obtain ⟨x, hx, rfl⟩ := List.mem_map.mp hr
    have hx' : Indexable env d s.db x := by
      rcases List.mem_append.mp (mem_detectAndReorderRenames.mp hx) with hx | hx
      · exact hchanged x hx
      · exact hdeleted x hx
    have hdel : (clearDeletedBlocks x).isDeleted = x.isDeleted := by
      unfold clearDeletedBlocks
      split <;> rfl
    rw [Indexable, name_clearDeletedBlocks, hdel]
    exact hx'
  refine ends_forM_updateFile.imp (fun _ v hv => ?_) fun v hv => ?_
  · rw [hv]
    exact ⟨hout, hu.indexable_upsertAll hout⟩
  · obtain ⟨-, stored, hinitial, hv⟩ := hv
    rw [hv]
    exact hu.indexable_upsertAll fun x hx => hout x (hinitial.subset hx)

/-- A scan no call of which fails pushes whatever it looks at and is not recorded so. -/
theorem ends_concat_scanDirtyChange (hcalm : ¬ env.Fails [])
    (hrelative : relative ∈ changes) (hlook : env.LooksAt d relative name hashes) {t : ScanState}
    (hnot : ¬ Recorded t.db name hashes) : Ends (concat (env.scanDirtyChange d inFlight) changes)
      (fun out _ => ∃ x ∈ out, x.name = name ∧ x.isDeleted = false) (fun _ => False) t := by
  induction changes generalizing t with
  | nil => cases hrelative
  | cons first rest ih =>
    simp only [concat, ends_bind, ends_pure]
    refine ends_scanDirtyChange.imp (fun out u hu => ?_) fun _ => False.elim
    obtain ⟨stored, h⟩ := hu
    obtain ⟨hstored, hcomplete⟩ := h.complete.resolve_left hcalm
    have hrest : ∀ v, Ends (concat (env.scanDirtyChange d inFlight) rest)
        (fun _ _ => True) (fun _ => False) v := fun v =>
      (ends_concat (fun _ => True) (fun _ => True) (fun relative _ w _ =>
        ends_scanDirtyChange.imp (fun _ _ _ => ⟨trivial, fun _ _ => trivial⟩) fun _ => id)
        trivial).imp (fun _ _ _ => trivial) fun _ => id
    by_cases hfound : ∃ x ∈ out, x.name = name ∧ x.isDeleted = false
    · obtain ⟨x, hx, hname⟩ := hfound
      exact (hrest u).imp (fun _ _ _ => ⟨x, mem_append_left _ hx, hname⟩) fun _ => id
    · -- not pushed, so not stored either
      have hsame : u.db.find? name = t.db.find? name := by
        rw [h.stored_eq, find?_upsertAll_of_notMem]
        intro x hx hname
        exact hfound ⟨x, hstored x hx, hname, (h.sourced x hx).1⟩
      have hmem : relative ∈ rest := by
        rcases List.mem_cons.mp hrelative with rfl | hmem
        · exact absurd ((hcomplete name hashes hlook).resolve_left hnot) hfound
        · exact hmem
      have hnot' : ¬ Recorded u.db name hashes := by
        rintro ⟨old, hold, hhashes⟩
        exact hnot ⟨old, by rw [← hsame, hold], hhashes⟩
      refine (ih hmem hnot').imp (fun out' _ hout => ?_) fun _ => id
      obtain ⟨x, hx, hname⟩ := hout
      exact ⟨x, mem_append_right _ hx, hname⟩

theorem ends_scanIncremental_pushes (hcalm : ¬ env.Fails []) (hrelative : relative ∈ changes)
    (hlook : env.LooksAt d relative name hashes) (hnot : ¬ Recorded s.db name hashes) :
    Ends (env.scanIncremental d inFlight changes deletes)
      (fun out _ => ∃ x ∈ out, x.name = name ∧ x.isDeleted = false) (fun _ => False) s := by
  unfold scanIncremental
  simp only [ends_bind, ends_pure]
  refine (ends_concat_scanDirtyChange hcalm hrelative hlook hnot).imp (fun changed t ht => ?_)
    fun _ => id
  obtain ⟨x, hx, hname, hlive⟩ := ht
  refine (ends_concat (fun _ => True) (fun _ => True) (fun relative _ u _ =>
    ends_scanDirtyDelete_deletes.imp (fun _ _ _ => ⟨trivial, fun _ _ => trivial⟩) fun _ => id)
    trivial).imp (fun deleted u _ => ?_) fun _ => id
  refine ends_forM_updateFile.imp (fun _ v _ => ?_) fun _ h => hcalm (h.1 [])
  refine ⟨x, List.mem_map.mpr ⟨x, ?_, clearDeletedBlocks_of_live hlive⟩, hname, hlive⟩
  exact mem_detectAndReorderRenames.mpr (mem_append_left _ hx)

theorem ScanEnv.LooksAt.of_fault (h : env.LooksAt d relative name hashes) :
    ScanEnv.LooksAt { env with fault } d relative name hashes := by
  cases h with
  | file hread hmetadata hignored => exact .file hread hmetadata hignored
  | walk hdir hmetadata hignored hvisits =>
    exact .walk hdir hmetadata hignored (hvisits.of_matcher rfl)

theorem ScanEnv.LooksAt.to_fault (h : ScanEnv.LooksAt { env with fault } d relative name hashes) :
    env.LooksAt d relative name hashes := h.of_fault

theorem indexes_fault_iff : ScanEnv.Indexes { env with fault } d name ↔ env.Indexes d name :=
  ⟨fun ⟨path, node, h⟩ => ⟨path, node, h.of_matcher rfl⟩,
    fun ⟨path, node, h⟩ => ⟨path, node, h.of_matcher rfl⟩⟩

/-- The watcher brings into the index only what a full scan indexes exactly if everything it makes
the scan look at is indexed by a full scan, or recorded as it is. -/
theorem watcher_stores_indexable_iff :
    StoresIndexable env d inFlight changes deletes s ↔ LooksAtIndexed env d changes s.db := by
  constructor
  · intro hstores relative hrelative name hashes hlook
    by_contra hnot
    rw [not_or] at hnot
    -- look at the scan no call of which fails
    have hcalm : ¬ ScanEnv.Fails { env with fault := fun _ => none } [] :=
      not_fails_of_calm fun _ => rfl
    obtain ⟨out, t, hok, x, hx, hname, hlive⟩ := (@ends_scanIncremental_pushes _ d s name relative
      hashes inFlight changes deletes hcalm hrelative hlook.of_fault hnot.2).exists_ok
    rcases ((hstores _).of_ok hok).1 x hx with hindexed | ⟨hdeleted, -⟩
    · exact hnot.1 (hname ▸ hindexed)
    · rw [hlive] at hdeleted
      cases hdeleted
  · intro hlooks fault
    have hlooks' : LooksAtIndexed { env with fault } d changes s.db :=
      fun relative hrelative name hashes hlook =>
        (hlooks relative hrelative name hashes hlook.to_fault).imp_left indexes_fault_iff.mpr
    have hindexable : ∀ r, Indexable { env with fault } d s.db r → Indexable env d s.db r :=
      fun r hr => hr.imp_left indexes_fault_iff.mp
    refine (ends_scanIncremental_indexable hlooks').imp (fun out t h => ?_) fun t h r hr => ?_
    · exact ⟨fun r hr => hindexable r (h.1 r hr), fun r hr => (h.2 r hr).imp_right (hindexable r)⟩
    · exact (h r hr).imp_right (hindexable r)

/-- On a tree a full scan indexes a changed path that passes the tests exactly if it skips no name
on it. The incremental scan tests a link to a directory as a directory. -/
theorem indexes_iff_not_skipped {path : List String} {node : DiskNode} (htree : IsTree d)
    (hpath : path ≠ []) (hnode : d.node path = some node)
    (hpasses : isIgnoredWithAncestors env.matcher (entryName path) node.isDirectory = false) :
    env.Indexes d (entryName path) ↔ ∀ name ∈ path, skippedName name = false := by
  have hsome : (d.node path).isSome := by simp [hnode]
  have hnames := fun name hname => (htree.named path hsome name hname).2
  have hvisits := @ScanEnv.visits_iff_not_excluded env d path node (htree.leads hsome) hpath hnode
  rw [← passes_iff_not_excluded (htree.leads hsome) hpath hnode hnames] at hvisits
  constructor
  · rintro ⟨path', node', h⟩
    -- a name stands for one path of a tree
    have hsome' : (d.node path').isSome := by simp [h.node_eq]
    obtain rfl : path' = path := by
      rw [← htree.namePath_entryName h.ne_nil hsome', ← h.name_eq rfl,
        htree.namePath_entryName hpath hsome]
    obtain rfl := Option.some.inj (h.node_eq.symm.trans hnode)
    exact (hvisits.mp h).1
  · exact fun hskip => ⟨path, node, hvisits.mpr ⟨hskip, hpasses⟩⟩

/-- A full scan of a folder with a hidden directory indexes nothing; the watcher brings what is in
it into the index. -/
theorem watcher_indexes_hidden :
    let disk : Disk := (FileStore.empty.set [".git"] (.dir (0, 0) 4096)).set [".git", "config"]
      (.file [7] (0, 0))
    (calmScan 1).listing disk none = .ok [] ∧
    ∃ out t, (calmScan 1).scanIncremental disk false [".git/config"] [] ⟨.empty, 0⟩ = .ok out t ∧
      out.map (·.name) = [".git/config"] ∧ t.db.entries = out := by
  exact ⟨rfl, _, _, rfl, by decide, by decide⟩

end Syncthing
