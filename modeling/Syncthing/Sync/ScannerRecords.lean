import Syncthing.Sync.Scanner

/-! Which records a scan writes, and what on disk they come from. -/
namespace Syncthing

open Program List

variable {env : ScanEnv} {d : Disk} {db : FolderFiles} {file old new r : FileInfo}
  {sub : Option String} {changed : List FileInfo}

theorem hashes_eq_iff {l m : List BlockInfo} :
    (l.length = m.length && (l.zip m).all fun (x, y) => x.hash = y.hash) = true ↔
      l.map (·.hash) = m.map (·.hash) := by
  induction l generalizing m with
  | nil => cases m <;> simp
  | cons b l ih =>
    cases m with
    | nil => simp
    | cons c m =>
      simp only [Bool.and_eq_true, decide_eq_true_eq, length_cons, Nat.add_right_cancel_iff,
        zip_cons_cons, all_cons, map_cons, cons.injEq] at ih ⊢
      rw [← ih]
      tauto

/-- Only the block hashes decide whether a file has changed. -/
theorem hasFileChanged_iff : hasFileChanged old new = true ↔ old.blockHashes ≠ new.blockHashes := by
  have h : hasFileChanged old new = !(old.blocks.length = new.blocks.length &&
      (old.blocks.zip new.blocks).all fun (o, n) => o.hash = n.hash) := by
    unfold hasFileChanged
    cases (old.blocks.length = new.blocks.length &&
      (old.blocks.zip new.blocks).all fun (o, n) => o.hash = n.hash) <;> simp
  rw [h, Bool.not_eq_true', ← Bool.not_eq_true, hashes_eq_iff]
  rfl

/-- A live file with the blocks of a deleted file of the list. -/
def isRenamed (changed : List FileInfo) (f : FileInfo) : Bool :=
  !f.isDeleted && changed.any fun del => del.isDeleted && hasSameBlocks del f

theorem hasSameBlocks_iff : hasSameBlocks old new = true ↔
    new.blockHashes ≠ [] ∧ old.blockHashes = new.blockHashes := by
  unfold FileInfo.blockHashes
  have hnew : new.blocks.map (·.hash) = [] ↔ new.blocks.length = 0 := by simp
  have hold : old.blocks.isEmpty = true ↔ old.blocks.length = 0 := by simp
  rw [← hashes_eq_iff, hasSameBlocks]
  grind

/-- A file is not deleted and live, so that its own index need not be left out. -/
theorem isRenameTarget_eq {idx : Nat} (hfile : (file, idx) ∈ changed.zipIdx) :
    isRenameTarget changed file idx = isRenamed changed file := by
  rw [Bool.eq_iff_iff]
  simp only [isRenameTarget, isRenamed, Bool.and_eq_true, Bool.not_eq_true', Bool.or_eq_false_iff,
    any_eq_true, Prod.exists, decide_eq_true_eq]
  constructor
  · rintro ⟨⟨hlive, -⟩, del, i, hdel, ⟨-, hgone⟩, hsame⟩
    exact ⟨hlive, del, fst_mem_of_mem_zipIdx hdel, hgone, hsame⟩
  · rintro ⟨hlive, del, hdel, hgone, hsame⟩
    obtain ⟨i, hi⟩ := mem_iff_getElem?.mp hdel
    refine ⟨⟨hlive, ?_⟩, del, i, mem_zipIdx_iff_getElem?.mpr hi, ⟨?_, hgone⟩, hsame⟩
    · simpa [FileInfo.blockHashes] using (hasSameBlocks_iff.mp hsame).1
    · rintro rfl
      cases hi.symm.trans (mem_zipIdx_iff_getElem?.mp hfile)
      exact Bool.false_ne_true (hlive.symm.trans hgone)

theorem map_fst_filter_zipIdx {p : FileInfo → Bool} {q : FileInfo × Nat → Bool}
    (h : ∀ x ∈ changed.zipIdx, q x = p x.1) :
    (changed.zipIdx.filter q).map Prod.fst = changed.filter p := by
  rw [filter_congr h]
  conv_rhs => rw [← zipIdx_map_fst 0 changed, filter_map]
  rfl

/-- Renamed files come first, and otherwise the order is kept. -/
theorem detectAndReorderRenames_eq_filter : detectAndReorderRenames changed =
    changed.filter (isRenamed changed) ++ changed.filter (!isRenamed changed ·) := by
  simp only [detectAndReorderRenames, partition_eq_filter_filter, map_append]
  congr 1
  · exact map_fst_filter_zipIdx fun x hx => isRenameTarget_eq hx
  · exact map_fst_filter_zipIdx fun x hx => congrArg not (isRenameTarget_eq hx)

theorem detectAndReorderRenames_perm : (detectAndReorderRenames changed).Perm changed := by
  rw [detectAndReorderRenames_eq_filter]
  exact filter_append_perm _ _

theorem mem_detectAndReorderRenames : r ∈ detectAndReorderRenames changed ↔ r ∈ changed :=
  detectAndReorderRenames_perm.mem_iff

theorem mem_orderChanged :
    r ∈ ScanEnv.orderChanged sub changed ↔ ∃ f ∈ changed, clearDeletedBlocks f = r := by
  cases sub <;> simp [ScanEnv.orderChanged, mem_detectAndReorderRenames]

@[simp] theorem name_clearDeletedBlocks : (clearDeletedBlocks r).name = r.name := by
  unfold clearDeletedBlocks
  split <;> rfl

@[simp] theorem version_clearDeletedBlocks : (clearDeletedBlocks r).version = r.version := by
  unfold clearDeletedBlocks
  split <;> rfl

theorem sequence_clearDeletedBlocks (r : FileInfo) :
    (clearDeletedBlocks r).sequence = r.sequence := by
  unfold clearDeletedBlocks
  split <;> rfl

/-- A live record whose file is gone, marked deleted. -/
def Vanished (env : ScanEnv) (d : Disk) (old r : FileInfo) : Prop :=
  old.isDeleted = false ∧ d.pathExists (namePath old.name) = false ∧
    ∃ sequence, r = deletedInfo env.localCounterId sequence old

/-- There is a temporary file of a download for the name. -/
def Downloading (d : Disk) (name : String) : Prop :=
  d.pathExists (tempPathFor (namePath name)) = true

/-- A scanned entry that is not what its record says, or has none. -/
def Compared (env : ScanEnv) (db : FolderFiles) (file r : FileInfo) : Prop :=
  match db.find? file.name with
  | some existing => existing.blockHashes ≠ file.blockHashes ∧
      ∃ sequence, r = modifiedInfo env.localCounterId sequence existing file
  | none => ∃ sequence, r = newInfo sequence file

/-- Such a record is the entry but for its version, number and base. -/
theorem Compared.eq_with (h : Compared env db file r) :
    ∃ version sequence baseVersion, r = { file with version, sequence, baseVersion } := by
  unfold Compared at h
  split at h
  · obtain ⟨-, sequence, rfl⟩ := h
    exact ⟨_, sequence, _, rfl⟩
  · obtain ⟨sequence, rfl⟩ := h
    exact ⟨_, sequence, _, rfl⟩

/-- A body of a scan that takes the next number for what it pushes, if it pushes anything. -/
def TakesNext (s : ScanState) (pushed : Option FileInfo) (t : ScanState) : Prop :=
  (pushed = none ∧ t = s) ∨
    ∃ x, pushed = some x ∧ x.sequence = s.sequence + 1 ∧ t = ⟨s.db, s.sequence + 1⟩

/-- Where a call of a scan looks. The calls on the database look nowhere. -/
def ScanStep.path? : ScanStep → Option (List String)
  | readDir path | metadata path | openFile path | readFile path | readLink path => some path
  | dbFolderFiles | dbGetFile _ | dbSequence _ | dbUpdate _ => none

/-- Some call on the database, or at or below a directory, can fail. -/
def ScanEnv.Fails (env : ScanEnv) (dir : List String) : Prop :=
  ∃ step, env.fault step ≠ none ∧ ∀ path, step.path? = some path → dir <+: path

namespace ScanEnv

variable {s : ScanState} {E : ScanState → Prop} {name : String} {Q : UInt64 → ScanState → Prop}
  {step : ScanStep} {error : IoError → SyncError} {e : SyncError} {dir : List String}

theorem fault_of_check (h : env.check step error = .error e) : env.fault step ≠ none := by
  unfold check at h
  split at h
  · cases h
  next hfault => simp [hfault]

theorem fails_of_database (hstep : step.path? = none) (h : env.check step error = .error e) :
    env.Fails dir := by
  refine ⟨step, fault_of_check h, fun path' hpath' => ?_⟩
  rw [hstep] at hpath'
  cases hpath'

theorem ends_incrementSequence_next
    (hQ : Q (s.sequence + 1) ⟨s.db, s.sequence + 1⟩) (hE : (∀ dir, env.Fails dir) → E s) :
    Ends (env.incrementSequence name) Q E s := by
  simp only [incrementSequence, ends_bind, ends_require, ends_modify, ends_get, ends_pure]
  exact ⟨fun _ _ => hQ, fun _ herror => hE fun _ => fails_of_database rfl herror⟩

theorem ends_incrementSequence
    (hQ : ∀ sequence, Q sequence ⟨s.db, sequence⟩) (hE : (∀ dir, env.Fails dir) → E s) :
    Ends (env.incrementSequence name) Q E s :=
  ends_incrementSequence_next (hQ _) hE

theorem ends_scanDeleted : Ends (env.scanDeleted d old)
      (fun r t => t.db = s.db ∧ match r with
        | some x => Vanished env d old x ∧ ¬ Downloading d old.name
        | none => old.isDeleted = false → d.pathExists (namePath old.name) = false →
          Downloading d old.name)
      (fun t => t.db = s.db ∧ ∀ dir, env.Fails dir) s := by
  unfold scanDeleted
  simp only [ends_ite, ends_bind, ends_pure, Bool.and_eq_true, Bool.not_eq_true']
  refine ⟨fun h => ⟨fun ht => ⟨trivial, fun _ _ => ht⟩, fun ht => ?_⟩,
    fun h => ⟨trivial, fun hlive hgone => absurd ⟨hgone, hlive⟩ h⟩⟩
  exact ends_incrementSequence (fun sequence => ⟨rfl, ⟨h.2, h.1, sequence, rfl⟩, ht⟩)
    fun hfails => ⟨rfl, hfails⟩

theorem ends_compareFile : Ends (env.compareFile file)
      (fun r t => t.db = s.db ∧ match r with
        | some x => Compared env s.db file x
        | none => ∃ existing, s.db.find? file.name = some existing ∧
          existing.blockHashes = file.blockHashes)
      (fun t => t.db = s.db ∧ ∀ dir, env.Fails dir) s := by
  unfold compareFile getFile
  simp only [ends_bind, ends_require, ends_get, ends_pure]
  refine ⟨fun _ _ => ?_, fun _ herror => ⟨trivial, fun _ => fails_of_database rfl herror⟩⟩
  cases hf : s.db.find? file.name with
  | none =>
    simp only [ends_bind, ends_pure]
    refine ends_incrementSequence (fun sequence => ⟨rfl, ?_⟩) fun hfails => ⟨rfl, hfails⟩
    simp only [Compared, hf]
    exact ⟨sequence, rfl⟩
  | some existing =>
    simp only [ends_ite, ends_bind, ends_pure]
    refine ⟨fun hc => ends_incrementSequence (fun sequence => ⟨rfl, ?_⟩)
      fun hfails => ⟨rfl, hfails⟩, fun hc => ⟨trivial, existing, rfl, ?_⟩⟩
    · simp only [Compared, hf]
      exact ⟨hasFileChanged_iff.mp hc, sequence, rfl⟩
    · rwa [hasFileChanged_iff, not_not] at hc

theorem ends_incrementSequence_takes {g : UInt64 → FileInfo}
    (hg : ∀ n, (g n).sequence = n) :
    Ends (env.incrementSequence name) (fun n => TakesNext s (some (g n))) (· = s) s :=
  ends_incrementSequence_next (.inr ⟨_, rfl, hg _, rfl⟩) fun _ => rfl

theorem ends_scanDeleted_takes : Ends (env.scanDeleted d old) (TakesNext s) (· = s) s := by
  unfold scanDeleted
  simp only [ends_ite, ends_bind, ends_pure]
  exact ⟨fun _ => ⟨fun _ => .inl ⟨rfl, rfl⟩, fun _ => ends_incrementSequence_takes fun _ => rfl⟩,
    fun _ => .inl ⟨rfl, rfl⟩⟩

theorem ends_compareFile_takes : Ends (env.compareFile file) (TakesNext s) (· = s) s := by
  unfold compareFile getFile
  simp only [ends_bind, ends_require, ends_get, ends_pure]
  refine ⟨fun _ _ => ?_, fun _ _ => trivial⟩
  cases s.db.find? file.name with
  | none =>
    simp only [ends_bind, ends_pure]
    exact ends_incrementSequence_takes fun _ => rfl
  | some existing =>
    simp only [ends_ite, ends_bind, ends_pure]
    exact ⟨fun _ => ends_incrementSequence_takes fun _ => rfl, fun _ => .inl ⟨rfl, rfl⟩⟩

/-- The entries a scan of a folder, or of a directory of it, finds on disk. -/
def listing (env : ScanEnv) (d : Disk) (sub : Option String) : Except SyncError (List FileInfo) :=
  env.scanDirectory d (d.depth + 1) ((sub.map namePath).getD []) (sub.getD "")

/-- A record that a scan may store. -/
def ScanChange (env : ScanEnv) (d : Disk) (sub : Option String) (db : FolderFiles)
    (r : FileInfo) : Prop :=
  ∃ x, clearDeletedBlocks x = r ∧
    ((sub = none ∧ ∃ old ∈ db.entries, Vanished env d old x ∧ ¬ Downloading d old.name) ∨
      ∃ files, env.listing d sub = .ok files ∧ ∃ file ∈ files, Compared env db file x)

theorem ends_scanDeletions : Ends (env.scanDeletions d sub)
      (fun out t => t.db = s.db ∧ ∀ x ∈ out, sub = none ∧ ∃ old ∈ s.db.entries,
        Vanished env d old x ∧ ¬ Downloading d old.name)
      (fun t => t.db = s.db) s := by
  cases sub with
  | some _ => simp [scanDeletions]
  | none =>
    simp only [scanDeletions, getFolderFiles, ends_bind, ends_require, ends_get, ends_pure,
      true_and]
    refine ⟨fun _ _ => ?_, fun _ _ => trivial⟩
    -- the loop only takes sequence numbers
    exact (ends_collect_complete (E := fun t => t.db = s.db ∧ ∀ dir, env.Fails dir)
      (fun t : ScanState => t.db = s.db) _ (fun _ _ _ ht => ht ▸ ends_scanDeleted) rfl).imp
      (fun _ _ h => ⟨h.1, h.2.1⟩) fun _ h => h.1

theorem ends_collect_compareFile {files : List FileInfo} : Ends (collect env.compareFile files)
      (fun out t => t.db = s.db ∧ ∀ x ∈ out, ∃ file ∈ files, Compared env s.db file x)
      (fun t => t.db = s.db) s :=
  (ends_collect_complete (E := fun t => t.db = s.db ∧ ∀ dir, env.Fails dir)
    (fun t : ScanState => t.db = s.db) _ (fun _ _ _ ht => ht ▸ ends_compareFile) rfl).imp
    (fun _ _ h => ⟨h.1, h.2.1⟩) fun _ h => h.1

/-- Storing a list of records stores the first of them when it fails. -/
theorem ends_forM_updateFile {changed : List FileInfo} :
    Ends (changed.forM env.updateFile) (fun _ t => t.db = s.db.upsertAll changed)
      (fun t => (∀ dir, env.Fails dir) ∧
        ∃ stored, stored <+: changed ∧ t.db = s.db.upsertAll stored) s := by
  refine ends_forM (fun done (t : ScanState) => t.db = s.db.upsertAll done)
    (fun done file rest hrest t ht => ?_) rfl
  simp only [updateFile, ends_bind, ends_require, ends_modify]
  refine ⟨fun _ _ => ?_, fun _ herror =>
    ⟨fun _ => fails_of_database rfl herror, done, hrest ▸ prefix_append _ _, ht⟩⟩
  rw [ht, KeyedList.upsertAll, KeyedList.upsertAll, foldl_append]
  rfl

theorem ends_markDeletedSubtree_mem {relative : String} : Ends (env.markDeletedSubtree d relative)
      (fun out t => t.db = s.db ∧ ∀ x ∈ out, ∃ old ∈ s.db.entries, ∃ sequence,
        x = clearDeletedBlocks (deletedInfo env.localCounterId sequence old))
      (fun t => t.db = s.db) s := by
  unfold markDeletedSubtree getFolderFiles
  simp only [ends_ite, ends_bind, ends_require, ends_get, ends_pure]
  refine ⟨by simp, fun _ => ⟨fun _ _ => ?_, fun _ _ => trivial⟩⟩
  refine ends_collect_mem (fun t : ScanState => t.db = s.db) (fun old x => ∃ sequence,
    x = clearDeletedBlocks (deletedInfo env.localCounterId sequence old)) (fun old _ t ht => ?_) rfl
  unfold markVanished
  simp only [ends_ite, ends_bind, ends_pure]
  refine ⟨by simp [ht], fun _ => ⟨fun _ => ⟨by simp [ht], fun _ => ?_⟩, by simp [ht]⟩⟩
  refine ends_incrementSequence (fun sequence => ⟨ht, ?_⟩) fun _ => ht
  rintro x ⟨⟩
  exact ⟨sequence, rfl⟩

/-- A scan stores the changes it reports; one that fails while storing has stored some. -/
theorem ends_scanFolderAt : Ends (env.scanFolderAt d sub)
      (fun out t => t.db = s.db.upsertAll out ∧ ∀ r ∈ out, ScanChange env d sub s.db r)
      (fun t => ∃ stored, t.db = s.db.upsertAll stored ∧
        ∀ r ∈ stored, ScanChange env d sub s.db r) s := by
  have hnone : ∃ stored, s.db = s.db.upsertAll stored ∧
      ∀ r ∈ stored, ScanChange env d sub s.db r := ⟨[], rfl, by simp⟩
  unfold scanFolderAt
  simp only [ends_ite, ends_bind, ends_pure, ends_require]
  refine ⟨fun _ => ⟨rfl, by simp⟩, fun _ => ⟨fun _ _ => ⟨fun _ => ⟨rfl, by simp⟩, fun _ =>
    ⟨fun files hfiles => ?_, fun _ _ => hnone⟩⟩, fun _ _ => hnone⟩⟩
  refine ends_scanDeletions.imp (fun deleted t ht => ?_) fun t ht => ht ▸ hnone
  obtain ⟨htdb, hdeleted⟩ := ht
  refine ends_collect_compareFile.imp (fun compared u hu => ?_) fun u hu => (hu.trans htdb) ▸ hnone
  obtain ⟨hudb, hcompared⟩ := hu
  have hchange : ∀ r ∈ orderChanged sub (deleted ++ compared), ScanChange env d sub s.db r := by
    intro r hr
    obtain ⟨x, hx, rfl⟩ := mem_orderChanged.mp hr
    refine ⟨x, rfl, ?_⟩
    rcases mem_append.mp hx with hx | hx
    · exact .inl (hdeleted x hx)
    · rw [htdb] at hcompared
      exact .inr ⟨files, hfiles, hcompared x hx⟩
  refine ends_forM_updateFile.imp (fun _ v hv => ?_) fun v hv => ?_
  · rw [hudb, htdb] at hv
    exact ⟨hv, hchange⟩
  · obtain ⟨-, stored, hstored, hv⟩ := hv
    rw [hudb, htdb] at hv
    exact ⟨stored, hv, fun r hr => hchange r (hstored.subset hr)⟩

end ScanEnv
end Syncthing
