import Syncthing.Lib.Transition
import Syncthing.Sync.FolderModel
import Syncthing.Sync.PullerContent

/-! A pull writes an entry back that was queued earlier. What keeps the recorded versions from going
back is that no entry waits that is ordered with the record of its name. -/
namespace Syncthing

open Program List FolderModel KeyedList Syncthing.Vector

variable {env : PullEnv} {st : FolderState} {db db' : FolderFiles} {info f g : FileInfo}
  {waiting files needed : List FileInfo} {m m' : FolderModel} {disk : Disk}
  {pending : List FileInfo} {taken tasks : List FileInfo}

/-- The version of `f` strictly dominates that of `g`. -/
def Supersedes (f g : FileInfo) : Prop := g.version.get < f.version.get

def Unordered (f g : FileInfo) : Prop := ¬ Supersedes f g ∧ ¬ Supersedes g f

theorem Unordered.symm (h : Unordered f g) : Unordered g f := ⟨h.2, h.1⟩

theorem unordered_of_version_eq (h : f.version.get = g.version.get) : Unordered f g := by
  unfold Unordered Supersedes
  rw [h]
  exact ⟨lt_irrefl _, lt_irrefl _⟩

theorem unordered_of_isConflict (h : isConflict f g = true) : Unordered f g := by
  obtain ⟨hgf, hfg⟩ := isConflict_iff.mp h
  exact ⟨fun h => hgf h.le, fun h => hfg h.le⟩

theorem supersedes_of_needsUpdate (h : needsUpdate f g = .update) : Supersedes g f := by
  obtain ⟨hfg, hgf⟩ := needsUpdate_update_iff.mp h
  rw [← Bool.not_eq_true, dominates_iff] at hfg
  exact lt_of_le_not_ge (dominates_iff.mp hgf) hfg

theorem needsUpdate_ne_ignore (h : isConflict f g = true) : needsUpdate f g ≠ .ignore := by
  simp [needsUpdate_of_isConflict h]

theorem version_eq_of_needsUpdate (h : needsUpdate f g = .conflict)
    (hc : isConflict f g = false) : f.version.get = g.version.get := by
  rw [← Bool.not_eq_true, isConflict_iff, not_and_or, not_not, not_not] at hc
  have hle : ∀ {v w : Vector}, v.dominates w = true → w.get ≤ v.get := dominates_iff.mp
  unfold needsUpdate compareVersions at h
  cases hfg : f.version.dominates g.version <;> cases hgf : g.version.dominates f.version
  · rw [← Bool.not_eq_true, dominates_iff] at hfg hgf
    exact absurd hc (not_or.mpr ⟨hfg, hgf⟩)
  · simp [hfg, hgf] at h
  · simp [hfg, hgf] at h
  · exact le_antisymm (hle hgf) (hle hfg)

/-- No replaced record was newer than the one that replaces it. -/
def NoRegression (db db' : FolderFiles) : Prop :=
  ∀ name old new, db.find? name = some old → db'.find? name = some new → ¬ Supersedes old new

/-- The entries that wait for a name, and the record of it, are pairwise unordered. -/
structure Aligned (db : FolderFiles) (waiting : List FileInfo) : Prop where
  record : ∀ w ∈ waiting, ∀ r, db.find? w.name = some r → Unordered r w
  entries : ∀ w ∈ waiting, ∀ x ∈ waiting, w.name = x.name → Unordered w x

theorem Aligned.subset (h : Aligned db waiting) (hs : needed ⊆ waiting) : Aligned db needed :=
  ⟨fun w hw => h.record w (hs hw), fun w hw x hx => h.entries w (hs hw) x (hs hx)⟩

theorem NoRegression.refl (db : FolderFiles) : NoRegression db db := by
  intro name old new hold hnew
  cases hold.symm.trans hnew
  exact lt_irrefl _

theorem noRegression_upsert (h : ∀ r, db.find? f.name = some r → ¬ Supersedes r f) :
    NoRegression db (db.upsert f) := by
  intro name old new hold hnew
  rw [find?_upsert] at hnew
  split at hnew
  next hname =>
    cases hnew
    exact h old (hname ▸ hold)
  · exact NoRegression.refl db name old new hold hnew

/-- A new record of a name that is unordered with all that waits for it. -/
theorem Aligned.upsert (h : Aligned db waiting)
    (hf : ∀ w ∈ waiting, w.name = f.name → Unordered f w) : Aligned (db.upsert f) waiting := by
  refine ⟨fun w hw r hr => ?_, h.entries⟩
  rw [find?_upsert] at hr
  split at hr
  next hname =>
    cases hr
    exact hf w hw hname.symm
  · exact h.record w hw r hr

/-- A further entry that is unordered with the record and with all that waits. -/
theorem Aligned.append (h : Aligned db waiting)
    (hf : ∀ w ∈ waiting, w.name = f.name → Unordered f w)
    (hr : ∀ r, db.find? f.name = some r → Unordered r f) : Aligned db (waiting ++ [f]) := by
  constructor
  · intro w hw r hfind
    rcases mem_append.mp hw with hw | hw
    · exact h.record w hw r hfind
    · cases mem_singleton.mp hw
      exact hr r hfind
  · intro w hw x hx hname
    rcases mem_append.mp hw with hw | hw <;> rcases mem_append.mp hx with hx | hx
    · exact h.entries w hw x hx hname
    · cases mem_singleton.mp hx
      exact (hf w hw hname).symm
    · cases mem_singleton.mp hw
      exact hf x hx hname.symm
    · cases mem_singleton.mp hw
      cases mem_singleton.mp hx
      exact unordered_of_version_eq rfl

/-- A file of an index that is ignored, or is unordered with all that waits for its name. -/
def EntryGuard (db : FolderFiles) (waiting : List FileInfo) (remote : FileInfo) : Prop :=
  (∃ r, db.find? remote.name = some r ∧ needsUpdate r remote = .ignore) ∨
    ∀ w ∈ waiting, w.name = remote.name → Unordered remote w

/-- A message names each file once, and every file in it is safe to take. -/
structure MessageGuard (db : FolderFiles) (waiting files : List FileInfo) : Prop where
  nodup : (files.map (·.name)).Nodup
  entry : ∀ remote ∈ files, EntryGuard db waiting remote

section index
variable {ienv : IndexEnv} {s t : FolderState} {remote : FileInfo} {out : Option FileInfo}
  {db'' : FolderFiles}

/-- One file: only the record of its name changes, and not to an older one. -/
theorem fileProcessed_aligned (h : IndexEnv.FileProcessed ienv s remote out t)
    (hs : Aligned s.db waiting) (hg : EntryGuard s.db waiting remote) :
    Aligned t.db (waiting ++ out.toList) ∧ NoRegression s.db t.db ∧ (∀ w ∈ out, w = remote) ∧
      ∀ name, name ≠ remote.name → t.db.find? name = s.db.find? name := by
  have hother : ∀ name, name ≠ remote.name → (s.db.upsert remote).find? name = s.db.find? name := by
    intro name hname
    rw [find?_upsert, if_neg (Ne.symm hname)]
  have hsame : Aligned s.db (waiting ++ (none : Option FileInfo).toList) := by simpa using hs
  have hpulled : ∀ w ∈ pulledUnlessDeleted remote, w = remote := fun w hw =>
    (name_of_pulledUnlessDeleted hw).1
  -- an accepted file is unordered with what waits, so it may replace the record and be queued
  have htake : ∀ {out : Option FileInfo} {db : FolderFiles}, Aligned db waiting →
      (∀ w ∈ waiting, w.name = remote.name → Unordered remote w) →
      (∀ r, db.find? remote.name = some r → Unordered r remote) → (∀ w ∈ out, w = remote) →
      Aligned db (waiting ++ out.toList) := by
    intro out db hdb hw hr hout
    cases out with
    | none => simpa using hdb
    | some w =>
      cases hout w rfl
      exact hdb.append hw hr
  have hself : ∀ r, (s.db.upsert remote).find? remote.name = some r → Unordered r remote := by
    intro r hr
    rw [find?_upsert, if_pos rfl] at hr
    cases hr
    exact unordered_of_version_eq rfl
  have hguard : ∀ localFile, s.db.find? remote.name = some localFile →
      needsUpdate localFile remote ≠ .ignore →
      ∀ w ∈ waiting, w.name = remote.name → Unordered remote w := by
    intro localFile hf hn
    rcases hg with ⟨r, hr, hi⟩ | hg
    · cases hf.symm.trans hr
      exact absurd hi hn
    · exact hg
  have hregr : ∀ localFile, s.db.find? remote.name = some localFile →
      ¬ Supersedes localFile remote → NoRegression s.db (s.db.upsert remote) := by
    intro localFile hf hn
    refine noRegression_upsert fun r hr => ?_
    cases hf.symm.trans hr
    exact hn
  cases h with
  | rejected | unknownDeletion | ignored | localWins => exact ⟨hsame, .refl _, by simp, by simp⟩
  | new hf hd hname =>
    have hw : ∀ w ∈ waiting, w.name = remote.name → Unordered remote w := by
      rcases hg with ⟨r, hr, -⟩ | hg
      · cases hf.symm.trans hr
      · exact hg
    refine ⟨htake (hs.upsert hw) hw hself (by simp), noRegression_upsert fun r hr => ?_, by simp,
      hother⟩
    cases hf.symm.trans hr
  | updated localFile hf hn hname =>
    have hw := hguard localFile hf (by simp [hn])
    exact ⟨htake (hs.upsert hw) hw hself hpulled,
      hregr localFile hf fun h => lt_asymm h (supersedes_of_needsUpdate hn), hpulled, hother⟩
  | sameVersion localFile hf hn hc hname =>
    have hw := hguard localFile hf (by simp [hn])
    refine ⟨htake hs hw (fun r hr => ?_) hpulled, .refl _, hpulled, by simp⟩
    cases hf.symm.trans hr
    exact unordered_of_version_eq (version_eq_of_needsUpdate hn hc)
  | mergedLater localFile hf hc hwins ht hname =>
    have hu := unordered_of_isConflict hc
    have hw := hguard localFile hf (needsUpdate_ne_ignore hc)
    exact ⟨htake (hs.upsert hw) hw hself hpulled, hregr localFile hf hu.1, hpulled, hother⟩
  | renamed localFile disk hf hc hwins ht hname hdisk =>
    have hu := unordered_of_isConflict hc
    have hw := hguard localFile hf (needsUpdate_ne_ignore hc)
    refine ⟨?_, hregr localFile hf hu.1, by simp, hother⟩
    simpa using hs.upsert hw

theorem NoRegression.trans_of_separate {name : String}
    (h : NoRegression db db') (h' : NoRegression db' db'')
    (hne : ∀ n, n ≠ name → db'.find? n = db.find? n)
    (heq : db''.find? name = db'.find? name) : NoRegression db db'' := by
  intro n old new hold hnew
  by_cases hn : n = name
  · subst hn
    rw [heq] at hnew
    exact h n old new hold hnew
  · rw [← hne n hn] at hold
    exact h' n old new hold hnew

/-- What handling a list of files leaves of the records, finished or not. -/
def Handled (db : FolderFiles) (files waiting : List FileInfo) (db' : FolderFiles) : Prop :=
  Aligned db' waiting ∧ NoRegression db db' ∧
    ∀ name ∉ files.map (·.name), db'.find? name = db.find? name

theorem Handled.cons (hnot : remote.name ∉ files.map (·.name))
    (hreg : NoRegression db db') (hother : ∀ name, name ≠ remote.name → db'.find? name = db.find? name)
    (h : Handled db' files waiting db'') : Handled db (remote :: files) waiting db'' := by
  obtain ⟨hal, hreg', hother'⟩ := h
  refine ⟨hal, hreg.trans_of_separate hreg' hother (hother' remote.name hnot), ?_⟩
  intro name hname
  rw [map_cons, mem_cons, not_or] at hname
  rw [hother' name hname.2, hother name hname.1]

theorem ends_collect_processFile (hs : Aligned s.db waiting)
    (hg : MessageGuard s.db waiting files) : Ends (collect ienv.processFile files)
      (fun needed t => Handled s.db files (waiting ++ needed) t.db)
      (fun t => Handled s.db files waiting t.db) s := by
  induction files generalizing s waiting with
  | nil => simpa [collect] using ⟨hs, NoRegression.refl s.db, by simp⟩
  | cons remote files ih =>
    have hnodup := hg.nodup
    rw [map_cons, nodup_cons] at hnodup
    simp only [collect, ends_bind, ends_pure]
    refine IndexEnv.ends_processFile.imp (fun out t ht => ?_) fun t ht => ?_
    · obtain ⟨hal, hreg, hout, hother⟩ :=
        fileProcessed_aligned ht hs (hg.entry remote mem_cons_self)
      have hguard : MessageGuard t.db (waiting ++ out.toList) files := by
        refine ⟨hnodup.2, fun x hx => ?_⟩
        have hne : x.name ≠ remote.name := fun he => hnodup.1 (he ▸ mem_map_of_mem hx)
        rcases hg.entry x (mem_cons_of_mem _ hx) with hi | hw
        · exact .inl (by rwa [hother x.name hne])
        · refine .inr fun w hwm hname => ?_
          rcases mem_append.mp hwm with hwm | hwm
          · exact hw w hwm hname
          · cases hout w (by simpa using hwm)
            exact absurd hname.symm hne
      refine (ih hal hguard).imp (fun needed u hu => ?_) fun u hu => ?_
      · rw [append_assoc] at hu
        exact hu.cons hnodup.1 hreg hother
      · have hu' : Handled t.db files waiting u.db := ⟨hu.1.subset (subset_append_left _ _), hu.2⟩
        exact hu'.cons hnodup.1 hreg hother
    · rw [ht.1]
      exact ⟨hs, .refl _, by simp⟩

end index

theorem mem_queueFile (h : f ∈ queueFile pending g) : f ∈ pending ∨ f = g := by
  unfold queueFile at h
  split at h
  · exact .inl h
  · simpa using h

theorem mem_foldl_queueFile (h : f ∈ files.foldl queueFile pending) : f ∈ pending ∨ f ∈ files := by
  induction files generalizing pending with
  | nil => exact .inl h
  | cons x files ih =>
    rcases ih h with h | h
    · rcases mem_queueFile h with h | rfl
      · exact .inl h
      · exact .inr mem_cons_self
    · exact .inr (mem_cons_of_mem _ h)

theorem mem_waiting_handleRemoteIndex (h : f ∈ (m.handleRemoteIndex files).waiting) :
    f ∈ m.waiting ∨ f ∈ files := by
  simp only [waiting, handleRemoteIndex, mem_append] at h ⊢
  rcases h with h | h
  · rcases mem_foldl_queueFile h with h | h
    · exact .inl (.inl h)
    · exact .inr h
  · exact .inl (.inr h)

/-- An index message leaves the records aligned with what then waits. -/
theorem aligned_indexMessage {ienv : IndexEnv} {full : Bool}
    (hm : Aligned m.folder.db m.waiting) (hg : MessageGuard m.folder.db m.waiting files) :
    Aligned (m.indexMessage ienv full files).folder.db (m.indexMessage ienv full files).waiting ∧
      NoRegression m.folder.db (m.indexMessage ienv full files).folder.db := by
  refine indexMessage_of_ends
    (fun m' => Aligned m'.folder.db m'.waiting ∧ NoRegression m.folder.db m'.folder.db)
    ((IndexEnv.ends_handle (ends_collect_processFile hm hg) ?_ ?_).imp ?_ ?_)
  · exact fun needed t ht => ⟨ht.1.subset (subset_append_left _ _), ht.2⟩
  · exact ⟨hm, .refl _, by simp⟩
  · intro outcome t ht
    refine ⟨ht.1.subset fun w hw => ?_, ht.2.1⟩
    exact mem_append.mpr (mem_waiting_handleRemoteIndex hw)
  · exact fun t ht => ⟨ht.1, ht.2.1⟩

/-- The records a task leaves: those it found, or with a record of the entry's name, version and
sequence number. -/
def RecordsEntry (info : FileInfo) (db db' : FolderFiles) : Prop :=
  db' = db ∨ ∃ x, x.name = info.name ∧ x.version = info.version ∧ x.sequence = info.sequence ∧
    db' = db.upsert x

namespace PullEnv

section
variable {r : Downloaded}

theorem recordsEntry_install {db : FolderFiles} {disk : Disk} {recorded : FileInfo}
    (hname : recorded.name = info.name) (hversion : recorded.version = info.version)
    (hsequence : recorded.sequence = info.sequence) :
    RecordsEntry info db (env.install ⟨db, disk⟩ info recorded).2.db := by
  unfold install
  simp only
  split
  · exact .inl rfl
  · split
    · exact .inl rfl
    · by_cases hfault : (env.fault .dbUpdate).isSome
      · exact .inl (if_pos hfault)
      · exact .inr ⟨recorded, hname, hversion, hsequence, if_neg hfault⟩

theorem recordsEntry_downloadFile (h : env.downloadFile st info = some r) :
    RecordsEntry info st.db r.state.db := by
  obtain ⟨-, hdb⟩ | ⟨st', recorded, hinstall, hdb, hname, hversion, hsequence⟩ :=
    downloadFile_installs h
  · exact .inl hdb
  · have hrecords := @recordsEntry_install env info st'.db st'.disk recorded hname hversion hsequence
    rwa [hinstall, hdb] at hrecords

theorem recordsEntry_deleteFile : RecordsEntry info st.db (env.deleteFile st info).2.db :=
  env.deleteFile_spec.2.2.imp_right fun h => ⟨info, rfl, rfl, rfl, h⟩

theorem recordsEntry_pullTask (h : env.pullTask st info = some r) :
    RecordsEntry info st.db r.state.db := by
  unfold pullTask at h
  split at h
  · obtain rfl : r = ⟨_, (env.deleteFile st info).2, false⟩ := (Option.some.inj h).symm
    exact recordsEntry_deleteFile
  · split at h
    · obtain rfl : r = ⟨_, (env.createDirectory st info).2, false⟩ := (Option.some.inj h).symm
      exact .inl createDirectory_spec.2.1
    · exact recordsEntry_downloadFile h
    · cases h
      exact .inl rfl

end

theorem neededOf_subset {d : Disk} {infos : List FileInfo} (h : env.neededOf d infos = .ok needed) :
    needed ⊆ infos := by
  induction infos generalizing needed with
  | nil =>
    cases h
    exact nil_subset _
  | cons x infos ih =>
    obtain ⟨b, -, h⟩ := bind_eq_ok.mp h
    obtain ⟨rest, hr, h⟩ := bind_eq_ok.mp h
    cases h
    split
    · exact cons_subset_cons _ (ih hr)
    · exact fun f hf => mem_cons_of_mem _ (ih hr hf)

theorem checkNeededFiles_subset (h : env.checkNeededFiles st = .ok needed) :
    needed ⊆ st.db.entries := by
  unfold checkNeededFiles at h
  split at h
  · cases h
  · exact neededOf_subset h

theorem withinDeleteQuota_subset : withinDeleteQuota db needed ⊆ needed := by
  unfold withinDeleteQuota
  simp only
  split
  · exact filter_subset_self _
  · exact List.Subset.refl _

end PullEnv

theorem RecordsEntry.aligned (h : RecordsEntry info db db') (hm : Aligned db waiting)
    (hinfo : info ∈ waiting) (hsub : needed ⊆ waiting) :
    Aligned db' needed ∧ NoRegression db db' := by
  rcases h with rfl | ⟨x, hname, hversion, -, rfl⟩
  · exact ⟨hm.subset hsub, .refl _⟩
  · have hx : ∀ {f}, Unordered info f → Unordered x f := by
      intro f hf
      unfold Unordered Supersedes at hf ⊢
      rwa [hversion]
    constructor
    · refine (hm.subset hsub).upsert fun w hw hwname => ?_
      exact hx (hm.entries info hinfo w (hsub hw) (hname.symm.trans hwname.symm))
    · refine noRegression_upsert fun r hr => ?_
      rw [hname] at hr
      exact (hx (hm.record info hinfo r hr).symm).2

section
variable (h : planTasks env st taken = (some tasks, disk))
include h

/-- What a planned pull adds to the entries it took is what `check_needed_files` finds. -/
theorem mem_planTasks_needed (hf : f ∈ tasks) :
    f ∈ taken ∨ ∃ needed, env.checkNeededFiles st = .ok needed ∧ f ∈ needed := by
  rcases planTasks_cases env st taken with hplan | ⟨needed, hneeded, hplan⟩
  · cases h.symm.trans hplan
  · cases h.symm.trans hplan
    rcases mem_foldl_queueFile (PullEnv.withinDeleteQuota_subset hf) with hf | hf
    · exact .inl hf
    · exact .inr ⟨needed, hneeded, hf⟩

theorem mem_planTasks (hf : f ∈ tasks) : f ∈ taken ∨ f ∈ st.db.entries := by
  rcases mem_planTasks_needed h hf with hf | ⟨needed, hneeded, hf⟩
  · exact .inl hf
  · exact .inr (PullEnv.checkNeededFiles_subset hneeded hf)

end

theorem mem_waiting_planPull {before later : List Pull} {pull : Pull}
    (hpulls : m.pulls = before ++ pull :: later)
    (hf : f ∈ (m.planPull env before pull later).waiting) :
    f ∈ m.waiting ∨ ∃ needed, env.checkNeededFiles m.folder = .ok needed ∧ f ∈ needed := by
  unfold planPull at hf
  split at hf
  rename_i tasks disk htasks
  split at hf
  · left
    simp only [waiting, hpulls, flatMap_append, flatMap_cons, mem_append] at hf ⊢
    tauto
  · have := mem_planTasks_needed (f := f) htasks
    simp only [waiting, hpulls, flatMap_append, flatMap_cons, mem_append] at hf ⊢
    tauto

/-- Records of the database may join what waits. -/
theorem Aligned.join_records (h : Aligned db waiting)
    (hsub : ∀ w ∈ needed, w ∈ waiting ∨ w ∈ db.entries) : Aligned db needed := by
  have hrecord : ∀ w ∈ needed, ∀ r, db.find? w.name = some r → Unordered r w := by
    intro w hw r hr
    rcases hsub w hw with hw | hw
    · exact h.record w hw r hr
    · cases (find?_key hw).symm.trans hr
      exact unordered_of_version_eq rfl
  refine ⟨hrecord, fun w hw x hx hname => ?_⟩
  rcases hsub w hw with hww | hwd
  · rcases hsub x hx with hxw | hxd
    · exact h.entries w hww x hxw hname
    · have hfind : db.find? w.name = some x := by
        rw [hname]
        exact find?_key hxd
      exact (hrecord w hw x hfind).symm
  · have hfind : db.find? x.name = some w := by
      rw [← hname]
      exact find?_key hwd
    exact hrecord x hx w hfind

/-- Index messages that are safe to take, and pulls. -/
def VersionGuard (m : FolderModel) : FolderEvent → Prop
  | .index _ _ files => MessageGuard m.folder.db m.waiting files
  | .scan .. | .incrementalScan .. => False
  | .takePending | .planPull .. | .progress .. | .task .. | .endPull => True

theorem aligned_step {e : FolderEvent} (hs : FolderStep m e m') (hg : VersionGuard m e)
    (hm : Aligned m.folder.db m.waiting) :
    Aligned m'.folder.db m'.waiting ∧ NoRegression m.folder.db m'.folder.db := by
  cases hs with
  | index => exact aligned_indexMessage hm hg
  | scan | incrementalScan => exact hg.elim
  | takePending hpull =>
    refine ⟨hm.subset ?_, .refl _⟩
    intro f hf
    simpa [waiting, takePending, or_comm] using hf
  | @planPull penv before pull later hpulls hp =>
    simp only [folder_planPull]
    refine ⟨hm.join_records fun f hf => (mem_waiting_planPull hpulls hf).imp_right ?_, .refl _⟩
    rintro ⟨needed, hneeded, hf⟩
    exact PullEnv.checkNeededFiles_subset hneeded hf
  | progress hpulls hp hinfo hvalid hlive hfile => exact ⟨hm, .refl _⟩
  | @task penv before pull later first info rest r hpulls hp hfiles hr =>
    refine (PullEnv.recordsEntry_pullTask hr).aligned hm ?_ ?_
    · simp [waiting, hpulls, hfiles]
    · intro f hf
      simp only [waiting, hpulls, flatMap_append, flatMap_cons,
        mem_append, hfiles, mem_cons] at hf ⊢
      tauto
  | @endPull before pull later hpulls hp hfiles =>
    refine ⟨hm.subset ?_, .refl _⟩
    intro f hf
    simp only [waiting, hpulls, flatMap_append, flatMap_cons, mem_append] at hf ⊢
    tauto

/-- Index handling of a device where nothing fails. -/
def calmIndex : IndexEnv where
  clock := calmEnv.clock
  localDeviceTag := some "AAAAAAA"
  fault := fun _ => none

/-- A folder with some records and files, and nothing under way. -/
def idleFolder (db : FolderFiles) (disk : Disk) : FolderModel where
  folderType := .sendReceive
  paused := false
  status := .idle
  folder := ⟨db, disk⟩
  sequence := 0
  pending := []
  pulls := []

/-- The entry of `x` that a peer announces as its `n`th version. -/
def peerVersion (n : UInt64) (byte : UInt8) : FileInfo :=
  { oneByte "x" byte with version := new.withCounter 5 n }

/-- The entry of `x` of another peer, which has not seen those of the first. -/
def rivalVersion : FileInfo :=
  { oneByte "x" 9 with version := new.withCounter 6 1, modifiedS := 1 }

end Syncthing
