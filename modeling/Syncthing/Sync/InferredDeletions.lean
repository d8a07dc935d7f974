import Syncthing.Sync.DirtyScans
import Syncthing.Sync.PendingPulls

/-! Which deletions incremental scans infer while files wait to be pulled. -/
namespace Syncthing

open Program Transition List FolderModel

variable {env : ScanEnv} {m m' : FolderModel} {s t : DirtyModel} {scan : DirtyScan}
  {f r w : FileInfo} {name relative : String} {u : ScanState} {d : Disk}

/-- The record is the path of the subtree or below it. -/
def inSubtree (relativePrefix name : String) : Bool := name = relativePrefix || Text.startsWith name
    (if Text.endsWith relativePrefix "/" then relativePrefix else relativePrefix ++ "/")

/-- The scan may still look whether the file has vanished. -/
def DirtyScan.Covers (scan : DirtyScan) (name : String) : Prop :=
  (∃ relative ∈ scan.deletes, inSubtree relative name = true) ∨
  (scan.pullInFlight = some false ∧ ∃ relative ∈ scan.changes, inSubtree relative name = true) ∨
  ∃ check ∈ scan.check, inSubtree check.relativePrefix name = true

/-- The next step of the scan makes a deletion of `r`. -/
def InfersDeletion (env : ScanEnv) (m : FolderModel) (scan : DirtyScan) (r : FileInfo) : Prop :=
  ∃ check records, scan.check = some check ∧ check.records = some (r :: records) ∧
    ∃ deleted t, env.markVanished m.folder.disk check.relativePrefix r m.scanState =
      .ok (some deleted) t

/-- A live record without a file, of a name that waits to be pulled. -/
def AwaitsDownload (m : FolderModel) (name : String) : Prop :=
  (∃ r, m.folder.db.find? name = some r ∧ r.isDeleted = false) ∧
    m.folder.disk.pathExists (namePath name) = false ∧
    ∃ w ∈ m.waiting, w.name = name ∧ w.isDeleted = false

/-- The watcher reports no deletion at or above a waiting file. No pull is missed below a changed
directory when it is sampled whether one is in flight. While a scan is under way nothing joins the
waiting files at or below the paths it may find vanished. -/
def InferenceGuard (s : DirtyModel) : DirtyEvent → Prop
  | .begin _ deletes =>
    ∀ w ∈ s.model.waiting, ∀ relative ∈ deletes, inSubtree relative w.name = false
  | .advance _ scan => scan.pullInFlight = none → s.model.pending = [] →
    scan.oldStatus ≠ .pulling →
    ∀ w ∈ s.model.waiting, ∀ relative ∈ scan.changes, inSubtree relative w.name = false
  | .other (.index _ _ files) => ∀ scan ∈ s.scans, ∀ f ∈ files, ¬ scan.Covers f.name
  | .other (.planPull env _) => ∀ needed, env.checkNeededFiles s.model.folder = .ok needed →
    ∀ scan ∈ s.scans, ∀ f ∈ needed, ¬ scan.Covers f.name
  | .other _ | .pause | .store .. => True

/-- How a file can come to wait: an index names it, or a pull finds it missing. -/
def Joins (m : FolderModel) (w : FileInfo) : FolderEvent → Prop
  | .index _ _ files => w ∈ files
  | .planPull env _ => ∃ needed, env.checkNeededFiles m.folder = .ok needed ∧ w ∈ needed
  | _ => False

theorem waiting_indexMessage {ienv : IndexEnv} {full : Bool} {files : List FileInfo}
    (hw : w ∈ (m.indexMessage ienv full files).waiting) : w ∈ m.waiting ∨ w ∈ files := by
  have hneeded : Ends (collect ienv.processFile files)
      (fun needed _ => ∀ f ∈ needed, f ∈ files) (fun _ => True) m.folder := by
    refine (ends_collect_mem (fun _ => True) (fun file f => f = file) (fun file _ s _ => ?_)
      trivial).imp (fun needed t ht f hf => ?_) fun _ => id
    · exact IndexEnv.ends_processFile.imp (fun out t ht => ⟨trivial, fun f hf => (ht.mem_out hf).1⟩)
        fun _ _ => trivial
    · obtain ⟨file, hfile, rfl⟩ := ht.2 f hf
      exact hfile
  revert hw
  refine indexMessage_of_ends
    (fun m' => w ∈ m'.waiting → w ∈ m.waiting ∨ w ∈ files)
    ((IndexEnv.ends_handle hneeded (fun _ _ _ => trivial) trivial).imp
      (fun outcome t ht hw => ?_) fun t _ => .inl)
  exact (mem_waiting_handleRemoteIndex hw).imp_right (ht w)

theorem waiting_step {e : FolderEvent} (hs : FolderStep m e m') (hw : w ∈ m'.waiting) :
    w ∈ m.waiting ∨ Joins m w e := by
  cases hs with
  | index => exact waiting_indexMessage hw
  | scan =>
    unfold scan at hw
    split at hw <;> exact .inl hw
  | incrementalScan | progress => exact .inl hw
  | takePending hpull =>
    left
    simpa [waiting, takePending, or_comm] using hw
  | planPull hpulls hp => exact mem_waiting_planPull hpulls hw
  | task hpulls _ hfiles | endPull hpulls _ hfiles =>
    left
    simp only [waiting, hpulls, flatMap_append, flatMap_cons, mem_append, hfiles, mem_cons] at hw ⊢
    tauto

theorem covers_of_advanceCheck {check : SubtreeCheck}
    (hcheck : scan.check = some check) (h : (scan.advanceCheck env d u check).1.Covers name) :
    scan.Covers name := by
  unfold DirtyScan.advanceCheck at h
  split at h
  · split at h
    · simpa [DirtyScan.Covers, hcheck] using h
    · exact h.imp_right fun h => h.imp_right fun ⟨c, hc, _⟩ => by cases hc
  · exact h.imp_right fun h => h.imp_right fun ⟨c, hc, _⟩ => by cases hc
  · split at h
    · simpa [DirtyScan.Covers, hcheck] using h
    · exact h.imp_right fun h => h.imp_right fun ⟨c, hc, _⟩ => by cases hc

/-- The path that is looked through next was one of those to come. -/
theorem covers_of_advancePath {inFlight : Bool} (hflight : scan.pullInFlight = some inFlight)
    (h : (scan.advancePath env d u inFlight).1.Covers name) : scan.Covers name := by
  unfold DirtyScan.advancePath at h
  split at h
  next relative changes hchanges =>
    simp only at h
    split at h
    · rcases h with h | ⟨hnot, p, hp, h⟩ | ⟨c, hc, h⟩
      · exact .inl h
      · exact .inr (.inl ⟨hnot, p, hchanges ▸ mem_cons_of_mem _ hp, h⟩)
      · split at hc
        next hdir =>
          cases hc
          have hnot : scan.pullInFlight = some false := by
            have hnot := (Bool.and_eq_true_iff.mp hdir).1
            rw [Bool.not_eq_true'] at hnot
            rw [hflight, hnot]
          exact .inr (.inl ⟨hnot, relative, hchanges ▸ mem_cons_self, h⟩)
        · cases hc
    · rcases h with h | ⟨hnot, p, hp, h⟩ | h
      · exact .inl h
      · exact .inr (.inl ⟨hnot, p, hchanges ▸ mem_cons_of_mem _ hp, h⟩)
      · exact .inr (.inr h)
  next relative deletes hchanges hdeletes =>
    simp only at h
    rcases h with ⟨p, hp, h⟩ | h | ⟨c, hc, h⟩
    · exact .inl ⟨p, hdeletes ▸ mem_cons_of_mem _ hp, h⟩
    · exact .inr (.inl h)
    · split at hc
      · cases hc
      · cases hc
        exact .inl ⟨relative, hdeletes ▸ mem_cons_self, h⟩
  · exact h

/-- A scan comes to cover nothing new, but for the changed paths when no pull is in flight. -/
theorem covers_of_advance {pending : List FileInfo}
    (h : (scan.advance env d pending u).1.Covers name) :
    scan.Covers name ∨ scan.pullInFlight = none ∧ pending = [] ∧ scan.oldStatus ≠ .pulling ∧
      ∃ relative ∈ scan.changes, inSubtree relative name = true := by
  unfold DirtyScan.advance at h
  split at h
  next check _ hcheck => exact .inl (covers_of_advanceCheck hcheck h)
  next hcheck hflight =>
    rcases h with h | ⟨hnot, h⟩ | h
    · exact .inl (.inl h)
    · simp only [Option.some.injEq, Bool.or_eq_false_iff, Bool.not_eq_false',
        List.isEmpty_iff, decide_eq_false_iff_not] at hnot
      exact .inr ⟨hflight, hnot.1, hnot.2, h⟩
    · exact .inl (.inr (.inr h))
  next inFlight _ hflight => exact .inl (covers_of_advancePath hflight h)

theorem inSubtree_of_markVanished {deleted : FileInfo} {u v : ScanState}
    (h : env.markVanished d relative r u = .ok (some deleted) v) :
    inSubtree relative r.name = true := by
  have hends : Ends (env.markVanished d relative r)
      (fun out _ => out.isSome → inSubtree relative r.name = true) (fun _ => True) u := by
    unfold ScanEnv.markVanished
    simp only [ends_ite, ends_bind, ends_pure, Option.isSome_none, Bool.false_eq_true,
      false_imp_iff]
    refine ⟨fun _ => trivial, fun _ => ⟨fun hsub => ⟨fun _ => trivial, fun _ => ?_⟩,
      fun _ => trivial⟩⟩
    exact ScanEnv.ends_incrementSequence_next (fun _ => hsub) fun _ => trivial
  exact hends.of_ok h rfl

/-- No file that waits is covered by a scan. -/
def Unsuspected (s : DirtyModel) : Prop :=
  ∀ scan ∈ s.scans, ∀ w ∈ s.model.waiting, ¬ scan.Covers w.name

theorem unsuspected_step {e : DirtyEvent} (hs : DirtyStep s e t) (hg : InferenceGuard s e)
    (h : Unsuspected s) : Unsuspected t := by
  cases hs with
  | @other m m' scans e hstep hwhole =>
    intro scan hscan w hw
    rcases waiting_step hstep hw with hw | hjoins
    · exact h scan hscan w hw
    · cases e with
      | index => exact hg scan hscan w hjoins
      | planPull =>
        obtain ⟨needed, hneeded, hw⟩ := hjoins
        exact hg needed hneeded scan hscan w hw
      | _ => exact hjoins.elim
  | pause => exact h
  | begin =>
    intro scan hscan w hw
    rcases mem_append.mp hscan with hscan | hscan
    · exact h scan hscan w hw
    · rw [mem_singleton] at hscan
      subst hscan
      rintro (⟨relative, hr, hsub⟩ | ⟨hnot, -⟩ | ⟨check, hc, -⟩)
      · rw [hg w hw relative hr] at hsub
        cases hsub
      · cases hnot
      · cases hc
  | @advance m env before scan later =>
    intro other hother w hw hcovers
    have hold : ∀ other ∈ before ++ scan :: later, ¬ other.Covers w.name :=
      fun other ho => h other ho w hw
    rcases mem_append.mp hother with hother | hother
    · exact hold other (mem_append_left _ hother) hcovers
    · rcases mem_cons.mp hother with rfl | hother
      · rcases covers_of_advance hcovers with hcovers | ⟨hnone, hpending, hstatus, relative, hr, hsub⟩
        · exact hold scan (by simp) hcovers
        · rw [hg hnone hpending hstatus w hw relative hr] at hsub
          cases hsub
      · exact hold other (by simp [hother]) hcovers
  | store hready =>
    intro scan hscan w hw
    refine h scan ?_ w hw
    rcases mem_append.mp hscan with hscan | hscan
    · exact mem_append_left _ hscan
    · exact mem_append_right _ (mem_cons_of_mem _ hscan)

/-- In every run that meets the guard, no incremental scan makes a deletion of a file that has been
accepted from a peer and waits to be pulled or is being pulled. -/
theorem no_deletion_inferred_of_waiting {s₀ : DirtyModel} (h0 : s₀.scans = [])
    (hrun : Reach DirtyStep InferenceGuard s₀ s) (hscan : scan ∈ s.scans)
    (hinfers : InfersDeletion env s.model scan r) : ¬ AwaitsDownload s.model r.name := by
  have hs : Unsuspected s := by
    refine hrun.invariant ?_ fun hg hs h => unsuspected_step hs hg h
    intro scan hscan
    rw [h0] at hscan
    cases hscan
  rintro ⟨-, -, w, hw, hname, -⟩
  obtain ⟨check, records, hcheck, -, deleted, u, hmark⟩ := hinfers
  refine hs scan hscan w hw (.inr (.inr ⟨check, hcheck, ?_⟩))
  rw [hname]
  exact inSubtree_of_markVanished hmark

/-- The file of a peer in a directory that is not there yet. -/
def newBelow : FileInfo := { oneByte "d/x" 7 with version := Vector.new.withCounter 5 1 }

/-- A recorded file is gone while another one waits. -/
theorem no_deletion_inferred_of_waiting_vanished :
    let m := (idleFolder (KeyedList.empty.upsert (peerVersion 1 7)) .empty).indexMessage
      calmIndex false [newBelow]
    let begun : FolderModel := { m with status := .scanning }
    let scan : DirtyScan :=
      ⟨.idle, some true, [], [], some ⟨"x", some [peerVersion 1 7, newBelow], []⟩, []⟩
    InfersDeletion (calmScan 1) begun scan (peerVersion 1 7) ∧ AwaitsDownload begun "d/x" ∧
      ¬ AwaitsDownload begun "x" := by
  intro m begun scan
  have hinfers : InfersDeletion (calmScan 1) begun scan (peerVersion 1 7) :=
    ⟨_, _, rfl, rfl, _, _, rfl⟩
  have hwaiting : m.waiting = [newBelow] := by decide
  have hindex : DirtyStep ⟨idleFolder (KeyedList.empty.upsert (peerVersion 1 7)) .empty, []⟩
      (.other (.index calmIndex false [newBelow])) ⟨m, []⟩ := .other .index (by simp)
  have hbegin : DirtyStep ⟨m, []⟩ (.begin [] ["x"])
      ⟨begun, [⟨.idle, none, [], ["x"], none, []⟩]⟩ := .begin
  have hguard : InferenceGuard ⟨m, []⟩ (.begin [] ["x"]) := by
    intro w hw relative hr
    rw [hwaiting] at hw
    rw [mem_singleton.mp hw, mem_singleton.mp hr]
    decide
  have hscan : Uninterrupted (calmScan 1) begun.folder.disk begun.pending
      (⟨.idle, none, [], ["x"], none, []⟩, begun.scanState) (scan, begun.scanState) :=
    .head rfl (.head rfl (.single rfl))
  have hbegun := (Reach.refl.next hindex (forall_mem_nil _)).next hbegin hguard
  have hpending : begun.pending ≠ [] := by decide
  have hreach : Reach DirtyStep InferenceGuard _ ⟨begun, [scan]⟩ := hbegun.trans
    (Uninterrupted.reach (fun _ _ _ hnone => absurd hnone hpending) hscan)
  exact ⟨hinfers,
    ⟨⟨newBelow, by decide, by decide⟩, by decide, newBelow, by decide, by decide, by decide⟩,
    no_deletion_inferred_of_waiting rfl hreach mem_cons_self hinfers⟩

/-- The peer's file is queued when the watcher reports that the directory is gone. -/
theorem deletion_inferred_of_waiting :
    ∃ s scan, Reach DirtyStep (fun _ _ => True) ⟨idleFolder .empty .empty, []⟩ s ∧
      scan ∈ s.scans ∧ scan.pullInFlight = some true ∧
      InfersDeletion (calmScan 1) s.model scan newBelow ∧ AwaitsDownload s.model "d/x" := by
  let m := (idleFolder .empty .empty).indexMessage calmIndex false [newBelow]
  let begun : FolderModel := { m with status := .scanning }
  let scan : DirtyScan := ⟨.idle, some true, [], [], some ⟨"d", some [newBelow], []⟩, []⟩
  have hindex : DirtyStep ⟨idleFolder .empty .empty, []⟩
      (.other (.index calmIndex false [newBelow])) ⟨m, []⟩ := .other .index (by simp)
  have hbegin : DirtyStep ⟨m, []⟩ (.begin [] ["d"])
      ⟨begun, [⟨.idle, none, [], ["d"], none, []⟩]⟩ := .begin
  have hscan : Uninterrupted (calmScan 1) begun.folder.disk begun.pending
      (⟨.idle, none, [], ["d"], none, []⟩, begun.scanState) (scan, begun.scanState) :=
    .head rfl (.head rfl (.single rfl))
  refine ⟨⟨begun, [scan]⟩, scan, ?_, mem_singleton_self _, rfl, ?_, ?_⟩
  · exact Reach.refl.go hindex |>.go hbegin |>.trans
      (Uninterrupted.reach (fun _ _ => trivial) hscan)
  · exact ⟨_, _, rfl, rfl, _, _, rfl⟩
  · exact ⟨⟨newBelow, by decide, by decide⟩, by decide, newBelow, by decide, by decide, by decide⟩

end Syncthing
