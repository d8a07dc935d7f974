import Syncthing.Sync.LocalEdits
import Syncthing.Sync.RecordedVersions

/-! `scan_incremental` of `folder_model/mod.rs` call by call. Between two calls an index can arrive,
a pull can begin, go on or end, and other scans can run. -/
namespace Syncthing

open Program Transition ScanEnv

/-- A subtree whose records are looked through for files that have vanished. -/
structure SubtreeCheck where
  relativePrefix : String
  /-- The records still to be looked at, once they have been read. -/
  records : Option (List FileInfo)
  marked : List FileInfo

/-- An incremental scan under way, with the paths it has still to come to. -/
structure DirtyScan where
  oldStatus : FolderStatus
  /-- Whether a pull is pending or running, once that has been sampled. -/
  pullInFlight : Option Bool
  changes : List String
  deletes : List String
  check : Option SubtreeCheck
  changed : List FileInfo

namespace ScanEnv

variable (env : ScanEnv)

/-- `mark_deleted_subtree` begins by reading the records of the folder. -/
def readSubtree (relativePrefix : String) : ScanM (List FileInfo) :=
  if isDefaultIgnoredPath relativePrefix then pure [] else env.getFolderFiles

/-- The end of a scan. `update_files` stores each record in a task of its own; here they are stored
in the order of the list. -/
def storeChanged (changed : List FileInfo) : ScanM (List FileInfo) := do
  let changed := (detectAndReorderRenames changed).map clearDeletedBlocks
  changed.forM env.updateFile
  return changed

end ScanEnv

namespace DirtyScan

variable (env : ScanEnv) (d : Disk) (s : ScanState) (scan : DirtyScan)

/-- The next record of a subtree. An error ends the subtree, and what it found is dropped. -/
def advanceCheck (check : SubtreeCheck) : DirtyScan × ScanState :=
  match check.records with
  | none =>
    match env.readSubtree check.relativePrefix s with
    | .ok records t => ({ scan with check := some { check with records := some records } }, t)
    | .error _ t => ({ scan with check := none }, t)
  | some [] => ({ scan with check := none, changed := scan.changed ++ check.marked }, s)
  | some (dbFile :: records) =>
    match env.markVanished d check.relativePrefix dbFile s with
    | .ok vanished t =>
      ({ scan with check := some { check with
        records := some records
        marked := check.marked ++ vanished.toList } }, t)
    | .error _ t => ({ scan with check := none }, t)

/-- The next path. A changed directory is scanned and then, unless a pull is in flight, looked
through for vanished files; so is a deleted path that is not there again. -/
def advancePath (inFlight : Bool) : DirtyScan × ScanState :=
  match scan.changes, scan.deletes with
  | relative :: changes, _ =>
    let check := if !inFlight && d.isDir (namePath relative) then
      some ⟨relative, none, []⟩ else none
    match env.scanDirtyChange d true relative s with
    | .ok files t => ({ scan with changes, check, changed := scan.changed ++ files }, t)
    | .error _ t => ({ scan with changes }, t)
  | [], relative :: deletes =>
    let check := if d.pathExists (namePath relative) then none else some ⟨relative, none, []⟩
    ({ scan with deletes, check }, s)
  | [], [] => (scan, s)

/-- What an incremental scan does next. -/
def advance (pending : List FileInfo) (s : ScanState) (scan : DirtyScan) : DirtyScan × ScanState :=
  match scan.check, scan.pullInFlight with
  | some check, _ => scan.advanceCheck env d s check
  | none, none =>
    ({ scan with pullInFlight := some (!pending.isEmpty || scan.oldStatus = .pulling) }, s)
  | none, some inFlight => scan.advancePath env d s inFlight

/-- Nothing is left but to store what has changed. -/
def ready : Bool :=
  scan.pullInFlight.isSome && scan.changes.isEmpty && scan.deletes.isEmpty && scan.check.isNone

end DirtyScan
open DirtyScan

/-- A folder and the incremental scans of it. -/
structure DirtyModel where
  model : FolderModel
  scans : List DirtyScan

namespace FolderModel

variable (m : FolderModel)

/-- The end of an incremental scan. -/
def storeScan (env : ScanEnv) (scan : DirtyScan) : FolderModel :=
  let x := env.storeChanged scan.changed
  { m.withScanState (after x m.scanState) with
    status := if (result? x m.scanState).isSome then .idle else scan.oldStatus }

end FolderModel

inductive DirtyEvent where
  | other (e : FolderEvent)
  | pause
  | begin (changes deletes : List String)
  | advance (env : ScanEnv) (scan : DirtyScan)
  | store (env : ScanEnv) (scan : DirtyScan)

/-- One step of the tasks that work on a folder. -/
inductive DirtyStep : DirtyModel → DirtyEvent → DirtyModel → Prop where
  | other {m m' scans e} (h : FolderStep m e m')
    (hwhole : ∀ env changes deletes, e ≠ .incrementalScan env changes deletes) :
    DirtyStep ⟨m, scans⟩ (.other e) ⟨m', scans⟩
  | pause {m scans} : DirtyStep ⟨m, scans⟩ .pause ⟨{ m with status := .idle }, scans⟩
  | begin {m scans changes deletes} :
    DirtyStep ⟨m, scans⟩ (.begin changes deletes)
      ⟨{ m with status := .scanning }, scans ++ [⟨m.status, none, changes, deletes, none, []⟩]⟩
  | advance {m env before scan later} :
    DirtyStep ⟨m, before ++ scan :: later⟩ (.advance env scan)
      ⟨m.withScanState (scan.advance env m.folder.disk m.pending m.scanState).2,
        before ++ (scan.advance env m.folder.disk m.pending m.scanState).1 :: later⟩
  | store {m env before scan later} (hready : scan.ready = true) :
    DirtyStep ⟨m, before ++ scan :: later⟩ (.store env scan)
      ⟨m.storeScan env scan, before ++ later⟩

section uninterrupted
variable {env : ScanEnv} {d : Disk} {pending : List FileInfo} {scan : DirtyScan} {s t : ScanState}
  {relative : String} {inFlight : Bool}

/-- What an incremental scan does while nothing else happens. -/
abbrev Uninterrupted (env : ScanEnv) (d : Disk) (pending : List FileInfo) :
    DirtyScan × ScanState → DirtyScan × ScanState → Prop :=
  Relation.ReflTransGen fun a b => b = a.1.advance env d pending a.2

theorem uninterrupted_check {records marked : List FileInfo} : Uninterrupted env d pending
      ({ scan with check := some ⟨relative, some records, marked⟩ }, s)
      (match collect (env.markVanished d relative) records s with
        | .ok out t => ({ scan with check := none, changed := scan.changed ++ (marked ++ out) }, t)
        | .error _ t => ({ scan with check := none }, t)) := by
  induction records generalizing marked s with
  | nil =>
    refine .single ?_
    simp [collect, pure, EStateM.pure, advance, advanceCheck]
  | cons dbFile records ih =>
    cases h : env.markVanished d relative dbFile s with
    | error e t =>
      simp only [collect, bind, EStateM.bind, h]
      refine .single ?_
      simp [advance, advanceCheck, h]
    | ok vanished t =>
      simp only [collect, bind, EStateM.bind, h]
      refine .head (b := ({ scan with check := some ⟨relative, some records,
        marked ++ vanished.toList⟩ }, t)) ?_ ?_
      · simp [advance, advanceCheck, h]
      · have hrest := @ih t (marked ++ vanished.toList)
        cases hcollect : collect (env.markVanished d relative) records t with
        | ok | error => simpa [hcollect, pure, EStateM.pure] using hrest

theorem markDeletedSubtree_eq : env.markDeletedSubtree d relative =
    env.readSubtree relative >>= collect (env.markVanished d relative) := by
  unfold markDeletedSubtree readSubtree
  split
  · rfl
  · rfl

/-- The subtree of a path is looked through. -/
theorem uninterrupted_subtree {out : List FileInfo}
    (h : logged (env.markDeletedSubtree d relative) s = .ok out t) :
    Uninterrupted env d pending ({ scan with check := some ⟨relative, none, []⟩ }, s)
      ({ scan with check := none, changed := scan.changed ++ out }, t) := by
  cases hread : env.readSubtree relative s with
  | error e u =>
    simp only [logged, markDeletedSubtree_eq, bind, EStateM.bind, hread,
      EStateM.Result.ok.injEq] at h
    obtain ⟨rfl, rfl⟩ := h
    refine .single ?_
    simp [advance, advanceCheck, hread]
  | ok records u =>
    refine .head (b := ({ scan with check := some ⟨relative, some records, []⟩ }, u)) ?_ ?_
    · simp [advance, advanceCheck, hread]
    · have hloop := @uninterrupted_check env d pending scan u relative records []
      simp only [logged, markDeletedSubtree_eq, bind, EStateM.bind, hread] at h
      cases hcollect : collect (env.markVanished d relative) records u with
      | ok | error =>
        simp only [hcollect, EStateM.Result.ok.injEq] at h hloop
        obtain ⟨rfl, rfl⟩ := h
        simpa using hloop

theorem scanDirtyChange_eq : env.scanDirtyChange d inFlight relative = do
      let files ← env.scanDirtyChange d true relative
      if !inFlight && d.isDir (namePath relative) then
        let deleted ← logged (env.markDeletedSubtree d relative)
        return files ++ deleted
      else return files := by
  unfold scanDirtyChange Disk.isDir
  cases d.nodeAt (namePath relative) with
  | none => simp
  | some node =>
    cases node with
    | file => simp
    | dir => cases inFlight <;> simp
    | symlink target modified view => cases view <;> cases inFlight <;> simp

theorem exists_scanDirtyChange : ∃ out t, env.scanDirtyChange d true relative s = .ok out t := by
  refine scanDirtyChange_cases (P := fun x => ∃ out t, x s = .ok out t)
    (fun _ _ => ⟨[], s, rfl⟩) (fun _ => ?_) fun _ _ => exists_logged _ s
  simp only [if_true, bind_pure]
  exact exists_logged _ s

variable {old : FolderStatus} {changes deletes : List String} {found : List FileInfo}

theorem uninterrupted_change : ∃ out t, env.scanDirtyChange d inFlight relative s = .ok out t ∧
      Uninterrupted env d pending
        (⟨old, some inFlight, relative :: changes, deletes, none, found⟩, s)
        (⟨old, some inFlight, changes, deletes, none, found ++ out⟩, t) := by
  obtain ⟨files, t, hfiles⟩ := @exists_scanDirtyChange env d s relative
  rw [scanDirtyChange_eq]
  simp only [bind, EStateM.bind, hfiles]
  cases hcheck : !inFlight && d.isDir (namePath relative) with
  | false =>
    refine ⟨files, t, rfl, .single ?_⟩
    simp [advance, advancePath, hfiles, hcheck]
  | true =>
    obtain ⟨deleted, u, hdeleted⟩ := exists_logged (env.markDeletedSubtree d relative) t
    refine ⟨files ++ deleted, u, by simp only [if_true, EStateM.bind, hdeleted]; rfl, ?_⟩
    have hsubtree := @uninterrupted_subtree env d pending
      ⟨old, some inFlight, changes, deletes, none, found ++ files⟩ t u relative deleted hdeleted
    rw [← List.append_assoc]
    refine .head ?_ hsubtree
    simp [advance, advancePath, hfiles, hcheck]

theorem uninterrupted_delete : ∃ out t, env.scanDirtyDelete d relative s = .ok out t ∧
      Uninterrupted env d pending
        (⟨old, some inFlight, [], relative :: deletes, none, found⟩, s)
        (⟨old, some inFlight, [], deletes, none, found ++ out⟩, t) := by
  unfold scanDirtyDelete
  cases hexists : d.pathExists (namePath relative) with
  | true =>
    refine ⟨[], s, rfl, .single ?_⟩
    simp [advance, advancePath, hexists]
  | false =>
    obtain ⟨deleted, t, hdeleted⟩ := exists_logged (env.markDeletedSubtree d relative) s
    refine ⟨deleted, t, by simpa using hdeleted, ?_⟩
    have hsubtree := @uninterrupted_subtree env d pending
      ⟨old, some inFlight, [], deletes, none, found⟩ s t relative deleted hdeleted
    refine .head ?_ hsubtree
    simp [advance, advancePath, hexists]

/-- The paths are worked off one after the other. -/
theorem uninterrupted_paths {f : String → ScanM (List FileInfo)} {paths : List String}
    (scanAt : List String → List FileInfo → DirtyScan)
    (hnext : ∀ {relative rest found s}, ∃ out t, f relative s = .ok out t ∧
      Uninterrupted env d pending (scanAt (relative :: rest) found, s)
        (scanAt rest (found ++ out), t)) :
    ∃ out t, concat f paths s = .ok out t ∧
      Uninterrupted env d pending (scanAt paths found, s) (scanAt [] (found ++ out), t) := by
  induction paths generalizing found s with
  | nil => exact ⟨[], s, rfl, by simpa using Relation.ReflTransGen.refl⟩
  | cons relative paths ih =>
    obtain ⟨files, t, hfiles, hfirst⟩ := @hnext relative paths found s
    obtain ⟨out, u, hout, hrest⟩ := @ih t (found ++ files)
    refine ⟨files ++ out, u, ?_, ?_⟩
    · simp only [concat, bind, EStateM.bind, hfiles, hout, pure, EStateM.pure]
    · rw [← List.append_assoc]
      exact hfirst.trans hrest

end uninterrupted

/-- What a scan does uninterrupted are steps of the folder. -/
theorem Uninterrupted.reach {env : ScanEnv} {m : FolderModel} {a b : DirtyScan × ScanState}
    {ok : DirtyModel → DirtyEvent → Prop}
    (hok : ∀ scan t, ok ⟨m.withScanState t, [scan]⟩ (.advance env scan))
    (h : Uninterrupted env m.folder.disk m.pending a b) :
    Reach DirtyStep ok ⟨m.withScanState a.2, [a.1]⟩ ⟨m.withScanState b.2, [b.1]⟩ := by
  induction h with
  | refl => exact .refl
  | @tail b c _ hstep ih =>
    subst hstep
    exact ih.next (@DirtyStep.advance (m.withScanState b.2) env [] b.1 []) (hok _ _)

/-- An incremental scan that nothing interrupts is the one of the folder model. -/
theorem incrementalScan_reach (m : FolderModel) (env : ScanEnv) (changes deletes : List String) :
    Reach DirtyStep (fun _ _ => True) ⟨m, []⟩ ⟨m.incrementalScan env changes deletes, []⟩ := by
  obtain ⟨changed, t, hchanged, hchanges⟩ := @uninterrupted_paths env m.folder.disk m.pending
    m.scanState [] _ changes (⟨m.status, some m.pullInFlight, ·, deletes, none, ·⟩)
    uninterrupted_change
  obtain ⟨deleted, u, hdeleted, hdeletes⟩ := @uninterrupted_paths env m.folder.disk m.pending
    t ([] ++ changed) _ deletes (⟨m.status, some m.pullInFlight, [], ·, none, ·⟩)
    uninterrupted_delete
  have hscan : env.scanIncremental m.folder.disk m.pullInFlight changes deletes m.scanState =
      env.storeChanged (changed ++ deleted) u := by
    simp only [scanIncremental, bind, EStateM.bind, hchanged, hdeleted]
    rfl
  let begun : FolderModel := { m with status := .scanning }
  have hbegin : Reach DirtyStep (fun _ _ => True) ⟨m, []⟩
      ⟨begun, [⟨m.status, none, changes, deletes, none, []⟩]⟩ :=
    .single ⟨.begin changes deletes, trivial, .begin⟩
  have hsampled : Uninterrupted env m.folder.disk m.pending
      (⟨m.status, none, changes, deletes, none, []⟩, m.scanState)
      (⟨m.status, some m.pullInFlight, changes, deletes, none, []⟩, m.scanState) := .single rfl
  have hpaths : Reach DirtyStep (fun _ _ => True) _ _ :=
    Uninterrupted.reach (m := begun) (fun _ _ => trivial)
      ((hsampled.trans hchanges).trans hdeletes)
  let ready : DirtyScan := ⟨m.status, some m.pullInFlight, [], [], none, [] ++ changed ++ deleted⟩
  have hstore := @DirtyStep.store (begun.withScanState u) env [] ready [] rfl
  have hend : (begun.withScanState u).storeScan env ready =
      m.incrementalScan env changes deletes := by
    simp only [FolderModel.storeScan, FolderModel.incrementalScan, FolderModel.afterScan, after,
      result?, hscan]
    rfl
  rw [hend] at hstore
  exact Reach.go (hbegin.trans hpaths) hstore

/-- Every run in which incremental scans take place at once is a run of their calls. -/
theorem folder_runs_call_by_call {m m' : FolderModel}
    (h : Reach FolderStep (fun _ _ => True) m m') :
    Reach DirtyStep (fun _ _ => True) ⟨m, []⟩ ⟨m', []⟩ := by
  induction h with
  | refl => exact .refl
  | @tail u v _ hstep ih =>
    obtain ⟨event, -, hstep⟩ := hstep
    by_cases hwhole : ∃ env changes deletes, event = .incrementalScan env changes deletes
    · obtain ⟨env, changes, deletes, rfl⟩ := hwhole
      cases hstep
      exact ih.trans (incrementalScan_reach u env changes deletes)
    · exact ih.go (.other hstep fun env changes deletes he => hwhole ⟨env, changes, deletes, he⟩)

theorem folder_runs_call_by_call_new_file :
    let m := idleFolder .empty (diskWith [7])
    Reach DirtyStep (fun _ _ => True) ⟨m, []⟩ ⟨m.incrementalScan (calmScan 1) ["x"] [], []⟩ :=
  folder_runs_call_by_call (Reach.refl.go .incrementalScan)

end Syncthing
