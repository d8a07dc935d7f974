import Syncthing.Lib.Transition
import Syncthing.Sync.FolderModel
import Syncthing.Sync.PullerContent

/-! The executions of `pull`, `scan_inner` and `scan_incremental` on one folder model, cut where
they write the status or wait. The status is the only thing that keeps a second pull from starting.
-/
namespace Syncthing

open Program Transition

/-- How far an execution of `pull` has got since it set the status. -/
inductive PullStage where
  | started
  | taken (pending : List FileInfo)
  /-- `pull_folder` has been called. -/
  | called (needed : List FileInfo)
  /-- The tasks `pull_folder` has still to finish. -/
  | working (tasks : List FileInfo)

def PullStage.inPullFolder : PullStage → Bool
  | started | taken _ => false
  | called _ | working _ => true

structure PullTask where
  oldStatus : FolderStatus
  stage : PullStage

inductive ScanKind where
  | full
  | sub (root : String)
  | incremental (changes deletes : List String)

/-- An execution of a scan since it set the status, with how the scanner returned. -/
structure ScanTask where
  oldStatus : FolderStatus
  kind : ScanKind
  succeeded : Option Bool

/-- A folder model with what is running on it. -/
structure FolderTasks where
  folderType : FolderType
  paused : Bool
  status : FolderStatus
  folder : FolderState
  sequence : UInt64
  pending : List FileInfo
  pulls : List PullTask
  scans : List ScanTask

/-- A status with which `pull` does not return at once. -/
def FolderStatus.letsPullStart (status : FolderStatus) : Bool := status ≠ .pulling

open FolderStatus (letsPullStart)

/-- Only the full and the sub-scan look at the configuration. -/
def ScanKind.skipsPaused : ScanKind → Bool
  | full | sub _ => true
  | incremental .. => false

def ScanKind.work (env : ScanEnv) (d : Disk) (pullInFlight : Bool) :
    ScanKind → ScanM (List FileInfo)
  | full => env.scanFolderAt d none
  | sub root => env.scanFolderAt d (some root)
  | incremental changes deletes => env.scanIncremental d pullInFlight changes deletes

namespace FolderTasks

variable (m : FolderTasks)

def canPull : Bool := !m.paused && m.folderType.canSync && m.status.letsPullStart

def beginPull : FolderTasks :=
  { m with status := .pulling, pulls := m.pulls ++ [⟨m.status, .started⟩] }

variable (pulls : List PullTask)

/-- A pull goes on to another stage. -/
def setPulls : FolderTasks := { m with pulls }

/-- A pull returns and sets the status. -/
def endPull (status : FolderStatus) (pulls : List PullTask) : FolderTasks :=
  { m with status, pulls }

def takePending : FolderTasks := { m with pending := [], pulls }

/-- `check_needed_files` and what `pull` does with its result. -/
def checkNeeded (env : PullEnv) (before : List PullTask) (oldStatus : FolderStatus)
    (taken : List FileInfo) (later : List PullTask) : FolderTasks :=
  match env.checkNeededFiles m.folder with
  | .error _ => m.endPull oldStatus (before ++ later)
  | .ok fsNeeded =>
    let needed := fsNeeded.foldl queueFile taken
    if needed.isEmpty then m.endPull oldStatus (before ++ later)
    else m.setPulls (before ++ ⟨oldStatus, .called needed⟩ :: later)

def setFolder (folder : FolderState) : FolderTasks := { m with folder }

/-- `pull_folder` up to its loop. An error is returned by `pull`. -/
def planTasks (env : PullEnv) (before : List PullTask) (oldStatus : FolderStatus)
    (needed : List FileInfo) (later : List PullTask) : FolderTasks :=
  match env.pullTasks m.folder needed with
  | (.error _, disk) => (m.setFolder { m.folder with disk }).endPull oldStatus (before ++ later)
  | (.ok tasks, disk) =>
    (m.setFolder { m.folder with disk }).setPulls (before ++ ⟨oldStatus, .working tasks⟩ :: later)

def beginScan (kind : ScanKind) : FolderTasks :=
  { m with status := .scanning, scans := m.scans ++ [⟨m.status, kind, none⟩] }

/-- The scanner stores what it finds and returns. -/
def runScan (env : ScanEnv) (before : List ScanTask) (scan : ScanTask) (later : List ScanTask) :
    FolderTasks :=
  let pullInFlight := !m.pending.isEmpty || scan.oldStatus = .pulling
  let x := scan.kind.work env m.folder.disk pullInFlight
  let t := after x ⟨m.folder.db, m.sequence⟩
  let succeeded := some (result? x ⟨m.folder.db, m.sequence⟩).isSome
  { m with
    folder := { m.folder with db := t.db }
    sequence := t.sequence
    scans := before ++ { scan with succeeded } :: later }

/-- A scan ends: idle, or with the status from before it if the scanner failed. -/
def endScan (oldStatus : FolderStatus) (succeeded : Bool) (scans : List ScanTask) : FolderTasks :=
  { m with status := if succeeded then .idle else oldStatus, scans }

def pause : FolderTasks := { m with status := .idle }

def indexMessage (env : IndexEnv) (full : Bool) (files : List FileInfo) : FolderTasks :=
  match (if full then env.handleIndex files else env.handleIndexUpdate files) m.folder with
  | .ok outcome folder => { m with folder, pending := outcome.needed.foldl queueFile m.pending }
  | .error _ folder => { m with folder }

end FolderTasks

inductive TaskEvent where
  | index (env : IndexEnv) (full : Bool) (files : List FileInfo)
  | beginPull
  | takePending
  | checkNeeded (env : PullEnv)
  | planTasks (env : PullEnv)
  | progress (env : PullEnv) (info : FileInfo) (written : Bytes)
  | task (env : PullEnv) (info : FileInfo)
  | endPull
  | beginScan (kind : ScanKind)
  | runScan (env : ScanEnv)
  | endScan
  | pause

/-- One step of anything that runs on the folder. -/
inductive TaskStep : FolderTasks → TaskEvent → FolderTasks → Prop where
  | index {m env full files} : TaskStep m (.index env full files) (m.indexMessage env full files)
  | beginPull {m} (h : m.canPull = true) : TaskStep m .beginPull m.beginPull
  | takePending {m before oldStatus later}
    (hm : m.pulls = before ++ ⟨oldStatus, .started⟩ :: later) :
    TaskStep m .takePending (m.takePending (before ++ ⟨oldStatus, .taken m.pending⟩ :: later))
  | checkNeeded {m env before oldStatus taken later}
    (hm : m.pulls = before ++ ⟨oldStatus, .taken taken⟩ :: later) :
    TaskStep m (.checkNeeded env) (m.checkNeeded env before oldStatus taken later)
  | planTasks {m env before oldStatus needed later}
    (hm : m.pulls = before ++ ⟨oldStatus, .called needed⟩ :: later) :
    TaskStep m (.planTasks env) (m.planTasks env before oldStatus needed later)
  | progress {m env before oldStatus tasks later info written}
    (hm : m.pulls = before ++ ⟨oldStatus, .working tasks⟩ :: later) (hinfo : info ∈ tasks) :
    TaskStep m (.progress env info written) (m.setFolder { m.folder with
      disk := m.folder.disk.partialDownload (namePath info.name) written env.clock.now })
  | task {m env before oldStatus first info rest later r}
    (hm : m.pulls = before ++ ⟨oldStatus, .working (first ++ info :: rest)⟩ :: later)
    (hr : env.pullTask m.folder info = some r) : TaskStep m (.task env info)
      ((m.setFolder r.state).setPulls (before ++ ⟨oldStatus, .working (first ++ rest)⟩ :: later))
  | endPull {m before oldStatus later}
    (hm : m.pulls = before ++ ⟨oldStatus, .working []⟩ :: later) :
    TaskStep m .endPull (m.endPull .idle (before ++ later))
  | beginScan {m kind} (h : m.paused = true → kind.skipsPaused = false) :
    TaskStep m (.beginScan kind) (m.beginScan kind)
  | runScan {m env before scan later} (hm : m.scans = before ++ scan :: later)
    (h : scan.succeeded = none) : TaskStep m (.runScan env) (m.runScan env before scan later)
  | endScan {m before oldStatus kind succeeded later}
    (hm : m.scans = before ++ ⟨oldStatus, kind, some succeeded⟩ :: later) :
    TaskStep m .endScan (m.endScan oldStatus succeeded (before ++ later))
  | pause {m} : TaskStep m .pause m.pause

namespace FolderTasks

/-- A folder model as it is created: nothing runs on it. -/
structure IsFresh (m : FolderTasks) : Prop where
  status : m.status = .idle
  pulls : m.pulls = []
  scans : m.scans = []

/-- At most one `pull_folder` runs, and while `pull` is in progress no other one can start. -/
structure OnePull (m : FolderTasks) : Prop where
  single : (m.pulls.filter (·.stage.inPullFolder)).length ≤ 1
  reported : m.pulls ≠ [] → m.status.letsPullStart = false

/-- The status of a folder with a pull in progress is left to that pull. -/
def StatusGuard (m : FolderTasks) : TaskEvent → Prop
  | .beginScan _ | .endScan | .pause => m.pulls = []
  | _ => True

/-- The status says whether a pull is in progress, and every old status is another one. -/
structure StatusInv (m : FolderTasks) : Prop where
  single : m.pulls.length ≤ 1
  status : m.status = .pulling ↔ m.pulls ≠ []
  pulls : ∀ pull ∈ m.pulls, pull.oldStatus ≠ .pulling
  scans : ∀ scan ∈ m.scans, scan.oldStatus ≠ .pulling

variable {m m' : FolderTasks} {e : TaskEvent} {env : PullEnv} {before later : List PullTask}
  {oldStatus : FolderStatus} {stage stage' : PullStage} {p : PullTask}

theorem StatusInv.onePull (h : StatusInv m) : OnePull m := by
  refine ⟨(List.length_filter_le _ _).trans h.single, fun hne => ?_⟩
  simp [letsPullStart, h.status.mpr hne]

theorem IsFresh.statusInv (h : IsFresh m) : StatusInv m := by
  refine ⟨?_, ?_, ?_, ?_⟩ <;> simp [h.status, h.pulls, h.scans]

section
variable (h : StatusInv m)
include h

/-- A step that leaves the status, the pulls and the scans. -/
theorem StatusInv.congr (hstatus : m'.status = m.status)
    (hpulls : m'.pulls = m.pulls) (hscans : m'.scans = m.scans) : StatusInv m' := by
  refine ⟨?_, ?_, ?_, ?_⟩
  · rw [hpulls]
    exact h.single
  · rw [hpulls, hstatus]
    exact h.status
  · rw [hpulls]
    exact h.pulls
  · rw [hscans]
    exact h.scans

/-- A pull goes on. -/
theorem StatusInv.movePull (hm : m.pulls = before ++ ⟨oldStatus, stage⟩ :: later)
    (hm' : m'.pulls = before ++ ⟨oldStatus, stage'⟩ :: later) (hstatus : m'.status = m.status)
    (hscans : m'.scans = m.scans) : StatusInv m' := by
  have hpulls := h.pulls
  refine ⟨?_, ?_, ?_, ?_⟩
  · have := h.single
    rw [hm] at this
    rw [hm']
    simpa using this
  · rw [hstatus, h.status, hm, hm']
    simp
  · rw [hm] at hpulls
    rw [hm']
    intro pull hp
    rcases List.mem_append.mp hp with hp | hp
    · exact hpulls pull (by simp [hp])
    · rcases List.mem_cons.mp hp with rfl | hp
      · exact hpulls ⟨oldStatus, stage⟩ (by simp)
      · exact hpulls pull (by simp [hp])
  · rw [hscans]
    exact h.scans

/-- The pull in progress ends. -/
theorem StatusInv.removePull (hm : m.pulls = before ++ p :: later)
    (hm' : m'.pulls = before ++ later) (hstatus : m'.status ≠ .pulling)
    (hscans : m'.scans = m.scans) : StatusInv m' := by
  have hlen := h.single
  rw [hm] at hlen
  have hnil : before ++ later = [] := by
    rw [← List.length_eq_zero_iff]
    simp only [List.length_append, List.length_cons] at hlen ⊢
    omega
  refine ⟨?_, ?_, ?_, ?_⟩
  · simp [hm', hnil]
  · simp [hm', hnil, hstatus]
  · simp [hm', hnil]
  · rw [hscans]
    exact h.scans

theorem StatusInv.endPull (hm : m.pulls = before ++ ⟨oldStatus, stage⟩ :: later)
    (hm' : m'.pulls = before ++ later) (hstatus : m'.status = oldStatus)
    (hscans : m'.scans = m.scans) : StatusInv m' := by
  refine h.removePull hm hm' ?_ hscans
  rw [hstatus]
  exact h.pulls ⟨oldStatus, stage⟩ (by simp [hm])

end

/-- Everything but the two ends of a scan and `pause` respects the invariant; those three do if no
pull is in progress. -/
theorem statusInv_step (hok : StatusGuard m e) (hstep : TaskStep m e m') (h : StatusInv m) :
    StatusInv m' := by
  cases hstep with
  | index =>
    unfold indexMessage
    split <;> exact h.congr rfl rfl rfl
  | beginPull hpull =>
    -- the status lets the pull start, so there is none
    have hstatus : m.status ≠ .pulling := by
      simp only [canPull, letsPullStart, Bool.and_eq_true, decide_eq_true_eq] at hpull
      exact hpull.2
    have hnil : m.pulls = [] := by
      by_contra hne
      exact hstatus (h.status.mpr hne)
    refine ⟨?_, ?_, ?_, h.scans⟩ <;> simp [beginPull, hnil, hstatus]
  | takePending hm | task hm => exact h.movePull hm rfl rfl rfl
  | checkNeeded hm =>
    unfold checkNeeded
    split
    · exact h.endPull hm rfl rfl rfl
    · simp only
      split
      · exact h.endPull hm rfl rfl rfl
      · exact h.movePull hm rfl rfl rfl
  | planTasks hm =>
    unfold planTasks
    split
    · exact h.endPull hm rfl rfl rfl
    · exact h.movePull hm rfl rfl rfl
  | progress hm => exact h.congr rfl rfl rfl
  | endPull hm => exact h.removePull hm rfl (nofun) rfl
  | beginScan =>
    have hnil : m.pulls = [] := hok
    refine ⟨h.single, by simp [beginScan, hnil], h.pulls, fun scan hscan => ?_⟩
    rcases List.mem_append.mp hscan with hscan | hscan
    · exact h.scans scan hscan
    · rw [List.mem_singleton.mp hscan]
      exact fun hold => h.status.mp hold hnil
  | @runScan env before scan later hm hnone =>
    refine ⟨h.single, h.status, h.pulls, fun scan' hscan => ?_⟩
    have hscans := h.scans
    rw [hm] at hscans
    rcases List.mem_append.mp hscan with hscan | hscan
    · exact hscans scan' (by simp [hscan])
    · rcases List.mem_cons.mp hscan with rfl | hscan
      · exact hscans scan (by simp)
      · exact hscans scan' (by simp [hscan])
  | @endScan before oldStatus kind succeeded later hm =>
    have hnil : m.pulls = [] := hok
    have hscans := h.scans
    rw [hm] at hscans
    have hold : oldStatus ≠ .pulling := hscans ⟨oldStatus, kind, some succeeded⟩ (by simp)
    refine ⟨h.single, ?_, h.pulls, fun scan hscan => hscans scan ?_⟩
    · cases succeeded <;> simp [endScan, hnil, hold]
    · rcases List.mem_append.mp hscan with hscan | hscan <;> simp [hscan]
  | pause =>
    have hnil : m.pulls = [] := hok
    exact ⟨h.single, by simp [pause, hnil], h.pulls, h.scans⟩

/-- Whatever else sets the status makes room for a second pull at once. -/
theorem not_onePull_of_not_guard (hok : ¬ StatusGuard m e) (hstep : TaskStep m e m')
    (h : StatusInv m) : ¬ OnePull m' := by
  intro hone
  have hstatus := hone.reported
  cases hstep with
  | beginScan => simpa [beginScan, letsPullStart] using hstatus hok
  | @endScan before oldStatus kind succeeded later hm =>
    have hold : oldStatus ≠ .pulling := h.scans ⟨oldStatus, kind, some succeeded⟩ (by simp [hm])
    have hset := hstatus hok
    cases succeeded <;> simp [endScan, letsPullStart, hold] at hset
  | pause => simpa [pause, letsPullStart] using hstatus hok
  | _ => exact hok trivial

end FolderTasks

/-- On a run from a fresh folder model there is never a second pull, and never a status that would
let it start, exactly if no scan begins or ends and no `pause` comes while a pull is in progress. -/
theorem onePull_iff {m m' : FolderTasks} {run : List (FolderTasks × TaskEvent)} (hm : m.IsFresh)
    (h : Run TaskStep m run m') :
    (m'.OnePull ∧ ∀ x ∈ run, x.1.OnePull) ↔ ∀ x ∈ run, x.1.StatusGuard x.2 :=
  h.holds_iff hm.statusInv FolderTasks.StatusInv.onePull FolderTasks.statusInv_step
    FolderTasks.not_onePull_of_not_guard

/-- A folder with one record and no file, so that a pull always finds something to do. -/
def needyFolder : FolderTasks where
  folderType := .sendReceive
  paused := false
  status := .idle
  folder := ⟨KeyedList.empty.upsert (oneByte "doc" 7), .empty⟩
  sequence := 1
  pending := []
  pulls := []
  scans := []

theorem needyFolder_isFresh : needyFolder.IsFresh := ⟨rfl, rfl, rfl⟩

/-- A pull of that folder gets as far as `pull_folder`. -/
theorem run_needyFolder : ∃ run m, Run TaskStep needyFolder run m ∧
    (∀ x ∈ run, x.1.StatusGuard x.2) ∧
    m = { needyFolder with
      status := .pulling
      pulls := [⟨.idle, .called [oneByte "doc" 7]⟩] } :=
  ⟨_, _, .snoc (.snoc (.snoc .nil (.beginPull rfl)) (@TaskStep.takePending _ [] _ [] rfl))
    (@TaskStep.checkNeeded _ calmEnv [] _ _ [] rfl), by simp [FolderTasks.StatusGuard], rfl⟩

theorem onePull_run : ∃ run m, Run TaskStep needyFolder run m ∧ m.pulls ≠ [] ∧ m.OnePull := by
  obtain ⟨run, m, h, hok, rfl⟩ := run_needyFolder
  exact ⟨run, _, h, by simp, ((onePull_iff needyFolder_isFresh h).mpr hok).1⟩

/-- A scan that begins during the pull lets a second one start. -/
theorem two_pulls_at_once : needyFolder.IsFresh ∧ ∃ run m, Run TaskStep needyFolder run m ∧
    (m.pulls.filter (·.stage.inPullFolder)).length = 2 := by
  obtain ⟨run, m, h, -, rfl⟩ := run_needyFolder
  exact ⟨needyFolder_isFresh, _, _,
    .snoc (.snoc (.snoc (.snoc h (@TaskStep.beginScan _ .full nofun)) (.beginPull rfl))
      (@TaskStep.takePending _ [_] _ [] rfl)) (@TaskStep.checkNeeded _ calmEnv [_] _ _ [] rfl),
    rfl⟩

end Syncthing
