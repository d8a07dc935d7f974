import Syncthing.Sync.Disk

/-! `add_folder` and `remove_folder` of `service/sync_manager.rs`, `start_folder` and `stop_folder`
of `service/sync_model.rs`, and what they use of `service/lifecycle.rs`. The loops of a folder are
tasks of their own, each with the model it was started with. -/
namespace Syncthing

open List

structure Folder where
  id : String
  path : String
  deriving DecidableEq

/-- A reference to a `FolderModel`, of which each is made once. -/
structure ModelRef where
  serial : Nat
  folder : Folder
  deriving DecidableEq

inductive LoopKind where
  | scan
  | pull
  | watcher
  deriving DecidableEq

/-- A running loop, with its model and the channel that ends it. -/
structure FolderLoop where
  kind : LoopKind
  model : ModelRef
  shutdown : Nat
  deriving DecidableEq

inductive ServiceError where
  | sync (error : SyncError)
  | internal (message : String)
  deriving DecidableEq

/-- What a call meets: whether the database takes the configuration of a folder, and whether a path
can be watched. -/
structure ServiceEnv where
  updateFolder : Folder → Except SyncError Unit
  watch : String → Except SyncError Unit

structure SyncService where
  config : List Folder
  folders : String → Option ModelRef
  /-- The channel of the loops of each folder that runs. -/
  folderTasks : String → Option Nat
  running : List FolderLoop
  models : Nat
  channels : Nat

namespace SyncService

def new : SyncService := ⟨[], fun _ => none, fun _ => none, [], 0, 0⟩

variable (env : ServiceEnv) (s : SyncService) (folder : Folder)

/-- A new model for a folder. -/
def register : SyncService := { s with
    folders := fun i => if i = folder.id then some ⟨s.models, folder⟩ else s.folders i
    models := s.models + 1 }

def addFolderInternal : Except SyncError Unit × SyncService :=
  if (s.folders folder.id).isSome then (.ok (), s)
  else match env.updateFolder folder with
    | .error e => (.error e, s)
    | .ok _ => (.ok (), s.register folder)

/-- The loops of a model. That of the watcher returns at once if the path cannot be watched. -/
def spawned (model : ModelRef) (shutdown : Nat) : List FolderLoop :=
  [⟨.scan, model, shutdown⟩, ⟨.pull, model, shutdown⟩] ++
    match env.watch model.folder.path with
    | .ok _ => [⟨.watcher, model, shutdown⟩]
    | .error _ => []

variable (id : String)

def launch (model : ModelRef) : SyncService := { s with
    folderTasks := fun i => if i = id then some s.channels else s.folderTasks i
    running := s.running ++ spawned env model s.channels
    channels := s.channels + 1 }

def startFolderInternal : Except SyncError Unit × SyncService :=
  match s.folders id with
  | none => (.error (.folderNotFound id), s)
  | some model =>
    if (s.folderTasks id).isSome then (.ok (), s)
    else (.ok (), s.launch env id model)

def addFolder (folder : Folder) : Except SyncError Unit × SyncService :=
  match { s with config := s.config ++ [folder] }.addFolderInternal env folder with
  | (.error e, s) => (.error e, s)
  | (.ok _, s) => s.startFolderInternal env folder.id

/-- The loops of the folder are left alone. -/
def removeFolder : SyncService := { s with
    config := s.config.filter (·.id ≠ id)
    folders := fun i => if i = id then none else s.folders i }

/-- Ends the loops of a channel and waits for them. -/
def halt (shutdown : Nat) : SyncService := { s with
    folderTasks := fun i => if i = id then none else s.folderTasks i
    running := s.running.filter (·.shutdown ≠ shutdown) }

def stopFolder : Except String Unit × SyncService :=
  match s.folderTasks id with
  | none => (.error ("Folder not running: " ++ id), s)
  | some shutdown => (.ok (), s.halt id shutdown)

end SyncService

inductive ServiceCall where
  | addFolder (folder : Folder)
  | removeFolder (id : String)
  | startFolder (id : String)
  | stopFolder (id : String)

variable (env : ServiceEnv) (s : SyncService)

def ServiceCall.exec :
    ServiceCall → Except ServiceError Unit × SyncService
  | addFolder folder => ((s.addFolder env folder).1.mapError .sync, (s.addFolder env folder).2)
  | removeFolder id => (.ok (), s.removeFolder id)
  | startFolder id => ((s.startFolderInternal env id).1.mapError (.internal ·.message),
      (s.startFolderInternal env id).2)
  | stopFolder id => ((s.stopFolder id).1.mapError .internal, (s.stopFolder id).2)

/-- The service, with the folders that have been started and neither stopped nor removed since. -/
structure ServiceRun where
  service : SyncService
  started : String → Bool

namespace ServiceRun

def new : ServiceRun := ⟨.new, fun _ => false⟩

variable (started : String → Bool)

def set (id : String) (value : Bool) (i : String) : Bool :=
  if i = id then value else started i

/-- What a call that has returned says about a folder. -/
def startedBy : ServiceCall → Except ServiceError Unit → String → Bool
  | .addFolder folder, .ok _ => set started folder.id true
  | .removeFolder id, _ => set started id false
  | .startFolder id, .ok _ => set started id true
  | .stopFolder id, .ok _ => set started id false
  | _, .error _ => started

def call (r : ServiceRun) (c : ServiceEnv × ServiceCall) : ServiceRun :=
  let (result, service) := c.2.exec c.1 r.service
  ⟨service, startedBy r.started c.2 result⟩

def after (calls : List (ServiceEnv × ServiceCall)) : ServiceRun := calls.foldl call new

end ServiceRun
open ServiceRun

namespace SyncService

variable (s : SyncService) (id : String)

def Configured : Prop := ∃ folder ∈ s.config, folder.id = id

/-- The loops that work on a folder. -/
def loops : List FolderLoop := s.running.filter (·.model.folder.id = id)

end SyncService

/-- One set of loops. -/
def loopSet (model : ModelRef) (shutdown : Nat) : List FolderLoop :=
  [⟨.scan, model, shutdown⟩, ⟨.pull, model, shutdown⟩, ⟨.watcher, model, shutdown⟩]

/-- A folder that is configured and started has one set of loops, on its model, and any other
folder has none. -/
def LoopsMatch (r : ServiceRun) : Prop := ∀ id, (r.service.Configured id ∧ r.started id = true →
      ∃ model shutdown, r.service.folders id = some model ∧
        r.service.loops id = loopSet model shutdown) ∧
    (¬ (r.service.Configured id ∧ r.started id = true) → r.service.loops id = [])

/-- A folder is removed only after it was stopped, and started only with a path that can be
watched. -/
def ServiceCall.Orderly : ServiceCall → Prop
  | addFolder folder => s.folderTasks folder.id = none → match s.folders folder.id with
    | some model => (env.watch model.folder.path).isOk
    | none => (env.updateFolder folder).isOk → (env.watch folder.path).isOk
  | removeFolder id => s.folderTasks id = none
  | startFolder id => s.folderTasks id = none →
      ∀ model, s.folders id = some model → (env.watch model.folder.path).isOk
  | stopFolder _ => True

/-- What holds as long as all calls are orderly. -/
structure Consistent (r : ServiceRun) : Prop where
  registered : ∀ {id model}, r.service.folders id = some model →
    model.folder.id = id ∧ r.service.Configured id
  started : ∀ id, r.started id = (r.service.folderTasks id).isSome
  runs : ∀ {id shutdown}, r.service.folderTasks id = some shutdown →
    ∃ model, r.service.folders id = some model ∧ r.service.loops id = loopSet model shutdown
  idle : ∀ {id}, r.service.folderTasks id = none → r.service.loops id = []
  fresh : ∀ {id shutdown}, r.service.folderTasks id = some shutdown → shutdown < r.service.channels
  own : ∀ {id id' shutdown}, r.service.folderTasks id = some shutdown →
    r.service.folderTasks id' = some shutdown → id = id'

section
variable {env : ServiceEnv} {s : SyncService} {r : ServiceRun} {model : ModelRef}
  {folder : Folder} {id i : String} {shutdown : Nat} {calls : List (ServiceEnv × ServiceCall)}

namespace SyncService

theorem spawned_of_watch (h : (env.watch model.folder.path).isOk = true) :
    spawned env model shutdown = loopSet model shutdown := by
  unfold spawned
  cases hwatch : env.watch model.folder.path with
  | ok => rfl
  | error e =>
    rw [hwatch] at h
    cases h

theorem spawned_ne_loopSet {model' : ModelRef} {shutdown' : Nat}
    (h : ¬ (env.watch model.folder.path).isOk = true) :
    spawned env model shutdown ≠ loopSet model' shutdown' := by
  intro heq
  have hlength := congrArg List.length heq
  unfold spawned at hlength
  cases hwatch : env.watch model.folder.path with
  | ok => exact h (by rw [hwatch]; rfl)
  | error e => simp [hwatch, loopSet] at hlength

theorem model_of_mem_spawned {l : FolderLoop} (h : l ∈ spawned env model shutdown) :
    l.model = model := by
  unfold spawned at h
  split at h <;> simp at h <;> rcases h with rfl | rfl | rfl <;> rfl

theorem folders_register : (s.register folder).folders i =
    if i = folder.id then some ⟨s.models, folder⟩ else s.folders i := rfl

theorem folders_removeFolder : (s.removeFolder id).folders i =
    if i = id then none else s.folders i := rfl

theorem folderTasks_launch : (s.launch env id model).folderTasks i =
    if i = id then some s.channels else s.folderTasks i := rfl

theorem folderTasks_halt : (s.halt id shutdown).folderTasks i =
    if i = id then none else s.folderTasks i := rfl

/-- A folder that is started gets its loops, and the others keep theirs. -/
theorem loops_launch (hid : model.folder.id = id) : (s.launch env id model).loops i =
    if i = id then s.loops i ++ spawned env model s.channels else s.loops i := by
  have hmodel := @model_of_mem_spawned env model s.channels
  have happend : (s.launch env id model).loops i = s.loops i ++
      (spawned env model s.channels).filter (·.model.folder.id = i) := List.filter_append ..
  rw [happend]
  split
  next heq =>
    have hall : (spawned env model s.channels).filter (·.model.folder.id = i) =
        spawned env model s.channels := by
      refine List.filter_eq_self.mpr fun l hl => ?_
      simp [hmodel hl, hid, heq]
    rw [hall]
  next hne =>
    have hnone : (spawned env model s.channels).filter (·.model.folder.id = i) = [] := by
      refine List.filter_eq_nil_iff.mpr fun l hl => ?_
      simp [hmodel hl, hid, Ne.symm hne]
    rw [hnone, List.append_nil]

theorem loops_halt : (s.halt id shutdown).loops i = (s.loops i).filter (·.shutdown ≠ shutdown) := by
  simp only [loops, halt, List.filter_filter, Bool.and_comm]

end SyncService

namespace Consistent

open SyncService

theorem new : Consistent .new where
  registered h := by cases h
  started _ := rfl
  runs h := by cases h
  idle _ := rfl
  fresh h := by cases h
  own h := by cases h

section
variable (h : Consistent r)
include h

theorem loopsMatch : LoopsMatch r := by
  intro id
  rw [h.started id]
  cases htasks : r.service.folderTasks id with
  | none => exact ⟨fun hboth => (nomatch hboth.2), fun _ => h.idle htasks⟩
  | some shutdown =>
    obtain ⟨model, hmodel, hloops⟩ := h.runs htasks
    exact ⟨fun _ => ⟨model, shutdown, hmodel, hloops⟩,
      fun hnot => absurd ⟨(h.registered hmodel).2, rfl⟩ hnot⟩

theorem configure (folder : Folder) :
    Consistent ⟨{ r.service with config := r.service.config ++ [folder] }, r.started⟩ where
  __ := h
  registered hmodel := by
    obtain ⟨hid, known, hknown, heq⟩ := h.registered hmodel
    exact ⟨hid, known, List.mem_append_left _ hknown, heq⟩

theorem register (hfolder : r.service.folders folder.id = none)
    (hconfigured : folder ∈ r.service.config) :
    Consistent ⟨r.service.register folder, r.started⟩ where
  __ := h
  registered {i model} hmodel := by
    rw [folders_register] at hmodel
    split at hmodel
    next hi =>
      cases hmodel
      exact ⟨hi.symm, folder, hconfigured, hi.symm⟩
    · exact h.registered hmodel
  runs {i shutdown} htasks := by
    obtain ⟨model, hmodel, hloops⟩ := h.runs htasks
    refine ⟨model, ?_, hloops⟩
    rw [folders_register, if_neg, hmodel]
    rintro rfl
    rw [hfolder] at hmodel
    cases hmodel

theorem launch (hmodel : r.service.folders id = some model)
    (hidle : r.service.folderTasks id = none) (hwatch : (env.watch model.folder.path).isOk = true) :
    Consistent ⟨r.service.launch env id model, ServiceRun.set r.started id true⟩ where
  registered := h.registered
  started i := by
    simp only [folderTasks_launch, ServiceRun.set]
    split
    · rfl
    · exact h.started i
  runs {i shutdown} htasks := by
    rw [loops_launch (h.registered hmodel).1]
    rw [folderTasks_launch] at htasks
    split at htasks
    next hi =>
      cases htasks
      refine ⟨model, hi ▸ hmodel, ?_⟩
      rw [if_pos hi, hi, h.idle hidle, List.nil_append, spawned_of_watch hwatch]
    next hi =>
      rw [if_neg hi]
      exact h.runs htasks
  idle {i} htasks := by
    rw [loops_launch (h.registered hmodel).1]
    rw [folderTasks_launch] at htasks
    split at htasks
    · cases htasks
    next hi =>
      rw [if_neg hi]
      exact h.idle htasks
  fresh {i shutdown} htasks := by
    rw [folderTasks_launch] at htasks
    split at htasks
    · cases htasks
      exact Nat.lt_succ_self _
    · exact Nat.lt_succ_of_lt (h.fresh htasks)
  own {i i' shutdown} htasks htasks' := by
    -- The channel is new, so no other folder has it.
    have hnew : ∀ {i}, r.service.folderTasks i ≠ some r.service.channels :=
      fun htasks => Nat.lt_irrefl _ (h.fresh htasks)
    rw [folderTasks_launch] at htasks htasks'
    split at htasks <;> split at htasks'
    next hi hi' => rw [hi, hi']
    · cases htasks
      exact absurd htasks' hnew
    · cases htasks'
      exact absurd htasks hnew
    · exact h.own htasks htasks'

theorem halt (htasks : r.service.folderTasks id = some shutdown) :
    Consistent ⟨r.service.halt id shutdown, ServiceRun.set r.started id false⟩ where
  registered := h.registered
  started i := by
    simp only [folderTasks_halt, ServiceRun.set]
    split
    · rfl
    · exact h.started i
  runs {i shutdown'} htasks' := by
    rw [folderTasks_halt] at htasks'
    split at htasks'
    · cases htasks'
    next hi =>
      have hother : shutdown' ≠ shutdown := by
        rintro rfl
        exact hi (h.own htasks' htasks)
      obtain ⟨model, hmodel, hloops⟩ := h.runs htasks'
      refine ⟨model, hmodel, ?_⟩
      rw [loops_halt, hloops]
      simp [loopSet, hother]
  idle {i} hidle := by
    rw [loops_halt]
    rw [folderTasks_halt] at hidle
    split at hidle
    next hi =>
      obtain ⟨model, -, hloops⟩ := h.runs htasks
      rw [hi, hloops]
      simp [loopSet]
    · rw [h.idle hidle, List.filter_nil]
  fresh {i shutdown'} htasks' := by
    rw [folderTasks_halt] at htasks'
    split at htasks'
    · cases htasks'
    · exact h.fresh htasks'
  own {i i' shutdown'} htasks₁ htasks₂ := by
    rw [folderTasks_halt] at htasks₁ htasks₂
    split at htasks₁
    · cases htasks₁
    · split at htasks₂
      · cases htasks₂
      · exact h.own htasks₁ htasks₂

theorem removeFolder (hidle : r.service.folderTasks id = none) :
    Consistent ⟨r.service.removeFolder id, set r.started id false⟩ where
  __ := h
  registered {i model} hmodel := by
    rw [folders_removeFolder] at hmodel
    split at hmodel
    · cases hmodel
    next hi =>
      obtain ⟨hid, known, hknown, heq⟩ := h.registered hmodel
      refine ⟨hid, known, List.mem_filter.mpr ⟨hknown, ?_⟩, heq⟩
      simp [heq, hi]
  started i := by
    simp only [ServiceRun.set]
    split
    next hi =>
      rw [hi, show (r.service.removeFolder id).folderTasks id = none from hidle]
      rfl
    · exact h.started i
  runs {i shutdown} htasks := by
    obtain ⟨model, hmodel, hloops⟩ := h.runs htasks
    refine ⟨model, ?_, hloops⟩
    rw [folders_removeFolder, if_neg, hmodel]
    rintro rfl
    rw [show r.service.folderTasks i = some shutdown from htasks] at hidle
    cases hidle

/-- A folder that is started without a watcher does not have its set of loops. -/
theorem not_loopsMatch_launch (hmodel : r.service.folders id = some model)
    (hidle : r.service.folderTasks id = none)
    (hwatch : ¬ (env.watch model.folder.path).isOk = true) :
    ¬ LoopsMatch ⟨r.service.launch env id model, set r.started id true⟩ := by
  intro hmatch
  obtain ⟨hid, hconfigured⟩ := h.registered hmodel
  obtain ⟨model', shutdown, -, hloops⟩ := (hmatch id).1 ⟨hconfigured, if_pos rfl⟩
  rw [loops_launch hid, if_pos rfl, h.idle hidle, List.nil_append] at hloops
  exact spawned_ne_loopSet hwatch hloops

/-- The loops of a folder that is removed while they run stay. -/
theorem not_loopsMatch_removeFolder (htasks : r.service.folderTasks id = some shutdown) :
    ¬ LoopsMatch ⟨r.service.removeFolder id, set r.started id false⟩ := by
  intro hmatch
  obtain ⟨model, -, hloops⟩ := h.runs htasks
  have hnone := (hmatch id).2 fun hboth => by simp [ServiceRun.set] at hboth
  rw [show (r.service.removeFolder id).loops id = loopSet model shutdown from hloops] at hnone
  cases hnone

/-- Starting a folder, for a model that is registered. -/
theorem startFolderInternal (hmodel : r.service.folders id = some model) :
    (r.service.startFolderInternal env id).1 = .ok () ∧
    ((r.service.folderTasks id = none → (env.watch model.folder.path).isOk = true) ∧
        Consistent ⟨(r.service.startFolderInternal env id).2, set r.started id true⟩ ∨
      ¬ (r.service.folderTasks id = none → (env.watch model.folder.path).isOk = true) ∧
        ¬ LoopsMatch ⟨(r.service.startFolderInternal env id).2,
          set r.started id true⟩) := by
  rw [SyncService.startFolderInternal, hmodel]
  cases htasks : r.service.folderTasks id with
  | some shutdown =>
    have hsame : set r.started id true = r.started := by
      funext i
      rw [ServiceRun.set]
      split
      next hi =>
        rw [hi, h.started id, htasks]
        rfl
      · rfl
    rw [hsame]
    exact ⟨rfl, .inl ⟨fun hnone => (nomatch hnone), h⟩⟩
  | none =>
    refine ⟨rfl, ?_⟩
    by_cases hwatch : (env.watch model.folder.path).isOk = true
    · exact .inl ⟨fun _ => hwatch, h.launch hmodel htasks hwatch⟩
    · exact .inr ⟨fun hguard => hwatch (hguard rfl), h.not_loopsMatch_launch hmodel htasks hwatch⟩

theorem addFolder (folder : Folder) : (ServiceCall.addFolder folder).Orderly env r.service ∧
        Consistent (r.call (env, .addFolder folder)) ∨
      ¬ (ServiceCall.addFolder folder).Orderly env r.service ∧
        ¬ LoopsMatch (r.call (env, .addFolder folder)) := by
  have hconfigured := h.configure folder
  set s₁ : SyncService := { r.service with config := r.service.config ++ [folder] } with hs₁
  have hrun : r.call (env, .addFolder folder) = ⟨(r.service.addFolder env folder).2,
      startedBy r.started (.addFolder folder)
        ((r.service.addFolder env folder).1.mapError .sync)⟩ := rfl
  have hadd : r.service.addFolder env folder = match s₁.addFolderInternal env folder with
      | (.error e, s) => (.error e, s)
      | (.ok _, s) => s.startFolderInternal env folder.id := rfl
  rw [hrun, ServiceCall.Orderly]
  cases hmodel : r.service.folders folder.id with
  | some model =>
    have hinternal : s₁.addFolderInternal env folder = (.ok (), s₁) := by
      rw [addFolderInternal, if_pos]
      rw [show s₁.folders folder.id = some model from hmodel]
      rfl
    obtain ⟨hok, hcases⟩ := @startFolderInternal env _ _ _ hconfigured hmodel
    simp only [hadd, hinternal, hok]
    exact hcases
  | none =>
    have hnone : ¬ (s₁.folders folder.id).isSome = true := by
      rw [show s₁.folders folder.id = none from hmodel]
      exact Bool.false_ne_true
    cases hstored : env.updateFolder folder with
    | error e =>
      have hinternal : s₁.addFolderInternal env folder = (.error e, s₁) := by
        rw [addFolderInternal, if_neg hnone, hstored]
      simp only [hadd, hinternal]
      exact .inl ⟨fun _ hok => (nomatch hok), hconfigured⟩
    | ok =>
      have hinternal : s₁.addFolderInternal env folder = (.ok (), s₁.register folder) := by
        rw [addFolderInternal, if_neg hnone, hstored]
      have hregistered := hconfigured.register hmodel
        (mem_append_right _ (mem_singleton_self folder))
      obtain ⟨hok, hcases⟩ := @startFolderInternal env _ ⟨r.service.models, folder⟩ _ hregistered
        (if_pos rfl)
      simp only [hadd, hinternal, hok]
      rcases hcases with ⟨hguard, hconsistent⟩ | ⟨hguard, hnot⟩
      · exact .inl ⟨fun hidle _ => hguard hidle, hconsistent⟩
      · exact .inr ⟨fun horderly => hguard fun hidle => horderly hidle rfl, hnot⟩

/-- An orderly call keeps the service consistent, and any other breaks it at once. -/
theorem call (c : ServiceCall) : c.Orderly env r.service ∧ Consistent (r.call (env, c)) ∨
      ¬ c.Orderly env r.service ∧ ¬ LoopsMatch (r.call (env, c)) := by
  cases c with
  | addFolder folder => exact h.addFolder folder
  | removeFolder id =>
    cases htasks : r.service.folderTasks id with
    | none => exact .inl ⟨htasks, h.removeFolder htasks⟩
    | some shutdown =>
      refine .inr ⟨fun hidle => ?_, h.not_loopsMatch_removeFolder htasks⟩
      rw [ServiceCall.Orderly, htasks] at hidle
      cases hidle
  | startFolder id =>
    have hrun : r.call (env, .startFolder id) = ⟨(r.service.startFolderInternal env id).2,
        startedBy r.started (.startFolder id)
          ((r.service.startFolderInternal env id).1.mapError (.internal ·.message))⟩ := rfl
    rw [hrun, ServiceCall.Orderly]
    cases hmodel : r.service.folders id with
    | none =>
      simp only [SyncService.startFolderInternal, hmodel]
      exact .inl ⟨fun _ _ hsome => (nomatch hsome), h⟩
    | some model =>
      obtain ⟨hok, hcases⟩ := @startFolderInternal env _ _ _ h hmodel
      simp only [hok]
      rcases hcases with ⟨hguard, hconsistent⟩ | ⟨hguard, hnot⟩
      · refine .inl ⟨fun hidle model' hmodel' => ?_, hconsistent⟩
        cases hmodel'
        exact hguard hidle
      · exact .inr ⟨fun horderly => hguard fun hidle => horderly hidle _ rfl, hnot⟩
  | stopFolder id =>
    have hrun : r.call (env, .stopFolder id) = ⟨(r.service.stopFolder id).2,
        startedBy r.started (.stopFolder id)
          ((r.service.stopFolder id).1.mapError .internal)⟩ := rfl
    refine .inl ⟨trivial, ?_⟩
    rw [hrun]
    cases htasks : r.service.folderTasks id with
    | none =>
      simp only [stopFolder, htasks]
      exact h
    | some shutdown =>
      simp only [stopFolder, htasks]
      exact h.halt htasks

end

end Consistent

theorem after_concat (calls : List (ServiceEnv × ServiceCall)) (c : ServiceEnv × ServiceCall) :
    ServiceRun.after (calls ++ [c]) = (ServiceRun.after calls).call c := by
  rw [ServiceRun.after, List.foldl_append]
  rfl

/-- As long as calls are orderly, or the loops match after them, the service is consistent. -/
theorem consistent_after (h : ∀ before env c, before ++ [(env, c)] <+: calls →
    c.Orderly env (after before).service ∨ LoopsMatch (after (before ++ [(env, c)]))) :
    Consistent (after calls) := by
  induction calls using List.reverseRecOn with
  | nil => exact Consistent.new
  | append_singleton calls c ih =>
    have hbefore := ih fun before env c hinitial =>
      h before env c (hinitial.trans (prefix_append _ _))
    have hcall := h calls c.1 c.2 (prefix_refl _)
    rw [after_concat] at hcall ⊢
    rcases @Consistent.call c.1 _ hbefore c.2 with ⟨-, hconsistent⟩ | ⟨hnot, hloops⟩
    · exact hconsistent
    · exact (hcall.elim hnot hloops).elim

/-- The loops match the configuration after every call exactly if every call is orderly. -/
theorem loops_match_iff : (∀ before, before <+: calls → LoopsMatch (after before)) ↔
    ∀ before env c, before ++ [(env, c)] <+: calls → c.Orderly env (after before).service := by
  constructor
  · intro h before env c hinitial
    have hbefore : before <+: calls := (List.prefix_append _ _).trans hinitial
    have hconsistent := consistent_after fun earlier env c hearlier =>
      .inr (h _ (hearlier.trans hbefore))
    rcases @Consistent.call env _ hconsistent c with ⟨horderly, -⟩ | ⟨-, hnot⟩
    · exact horderly
    · rw [← after_concat] at hnot
      exact absurd (h _ hinitial) hnot
  · intro h before hbefore
    exact (consistent_after fun earlier env c hearlier =>
      .inl (h earlier env c (hearlier.trans hbefore))).loopsMatch

/-- A folder that is removed keeps its loops, and one that is added again under its name is left to
them: its model has none. -/
theorem removed_folder_keeps_loops : let env : ServiceEnv := ⟨fun _ => .ok (), fun _ => .ok ()⟩
    let removed := after [(env, .addFolder ⟨"f", "/a"⟩), (env, .removeFolder "f")]
    let added := removed.call (env, .addFolder ⟨"f", "/b"⟩)
    (¬ LoopsMatch removed ∧ removed.service.loops "f" = loopSet ⟨0, "f", "/a"⟩ 0) ∧
      (¬ LoopsMatch added ∧ added.service.folders "f" = some ⟨1, "f", "/b"⟩ ∧
        added.service.loops "f" = loopSet ⟨0, "f", "/a"⟩ 0) := by
  intro env removed added
  have hremoved : removed.service.loops "f" = loopSet ⟨0, "f", "/a"⟩ 0 := by decide
  have hfolder : added.service.folders "f" = some ⟨1, "f", "/b"⟩ := by decide
  have hadded : added.service.loops "f" = loopSet ⟨0, "f", "/a"⟩ 0 := by decide
  refine ⟨⟨fun h => ?_, hremoved⟩, fun h => ?_, hfolder, hadded⟩
  · have hnone := (h "f").2 fun hboth => by simp [removed, ServiceRun.after, ServiceRun.call,
      ServiceRun.startedBy, ServiceRun.set, ServiceCall.exec] at hboth
    rw [hremoved] at hnone
    cases hnone
  · obtain ⟨model, shutdown, hmodel, hloops⟩ := (h "f").1
      ⟨⟨⟨"f", "/b"⟩, by decide, rfl⟩, by decide⟩
    rw [hfolder] at hmodel
    cases hmodel
    rw [hadded] at hloops
    cases hloops

end
end Syncthing
