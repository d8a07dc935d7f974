import Syncthing.Sync.ScanOrigin
import Syncthing.Sync.VisiblePaths

/-! An accepted record is in the database before its file is on disk. Until then it has to wait in
the queue, or the disk has to show `check_needed_files` that the file is missing. -/
namespace Syncthing

open FileStore Program List Disk FolderModel FolderStep KeyedList PullEnv

variable {env : PullEnv} {ienv : IndexEnv} {st s t : FolderState} {info f remote : FileInfo}
  {d d' : Disk} {sha256 : Bytes → Bytes} {waiting files needed pending : List FileInfo}
  {m m' : FolderModel} {q path : List String}

/-- The file of a record is missing, or a scan would give it other block hashes. -/
def Differs (sha256 : Bytes → Bytes) (d : Disk) (f : FileInfo) : Prop :=
  (d.nodeAt (namePath f.name)).map (nodeHashes sha256) ≠ some f.blockHashes

instance : Decidable (Differs sha256 d f) := inferInstanceAs (Decidable (_ ≠ _))

/-- What `check_needed_files` looks at for a live record. -/
def needsPull (d : Disk) (f : FileInfo) : Bool :=
  !d.pathExists (namePath f.name) || (f.fileType ≠ .directory &&
    match d.metadataLen (namePath f.name) with
    | .ok len => (len : Int) ≠ f.size % 2 ^ 64
    | .error _ => false)

/-- The file of a record differs, and `check_needed_files` does not see it. -/
def Unseen (sha256 : Bytes → Bytes) (d : Disk) (f : FileInfo) : Prop :=
  Differs sha256 d f ∧ needsPull d f = false

instance : Decidable (Unseen sha256 d f) := inferInstanceAs (Decidable (_ ∧ _))

theorem isNeeded_of_needsPull {needed : Bool} (h : env.isNeeded d f = .ok needed)
    (hlive : f.isDeleted = false) (hf : needsPull d f = true) : needed = true := by
  unfold needsPull at hf
  simp only [isNeeded, hlive, Bool.false_eq_true, if_false] at h
  by_cases hp : d.pathExists (namePath f.name)
  · simp only [hp, Bool.not_true, Bool.false_or, Bool.and_eq_true, decide_eq_true_eq] at hf
    simp only [hp, Bool.not_true, Bool.false_eq_true, if_false, hf.1] at h
    cases hlen : d.metadataLen (namePath f.name) with
    | error e =>
      rw [hlen] at hf
      cases hf.2
    | ok len =>
      rw [hlen] at h hf
      cases hfault : env.fault (.metadata f.name) with
      | some e => simp [hfault, orFault] at h
      | none =>
        simp only [hfault, orFault] at h
        rw [← Except.ok.inj h]
        exact hf.2
  · simp only [hp] at h
    exact (Except.ok.inj h).symm

/-- A check that returns finds every live record whose file it sees to be missing or of another
size. -/
theorem mem_checkNeededFiles (h : env.checkNeededFiles st = .ok needed)
    (hf : f ∈ st.db.entries) (hlive : f.isDeleted = false)
    (hneeds : needsPull st.disk f = true) : f ∈ needed := by
  have hlist : ∀ {infos needed : List FileInfo}, env.neededOf st.disk infos = .ok needed →
      f ∈ infos → f ∈ needed := by
    intro infos
    induction infos with
    | nil =>
      intro needed _ hf
      cases hf
    | cons x infos ih =>
      intro needed h hf
      obtain ⟨b, hb, h⟩ := bind_eq_ok.mp h
      obtain ⟨rest, hr, h⟩ := bind_eq_ok.mp h
      cases h
      rcases mem_cons.mp hf with rfl | hf
      · rw [isNeeded_of_needsPull hb hlive hneeds]
        exact mem_cons_self
      · split
        · exact mem_cons_of_mem _ (ih hr hf)
        · exact ih hr hf
  unfold checkNeededFiles at h
  split at h
  · cases h
  · exact hlist h hf

theorem unseen_congr (h : d'.node (namePath f.name) = d.node (namePath f.name)) :
    Unseen sha256 d' f ↔ Unseen sha256 d f := by
  have hnode : d'.nodeAt (namePath f.name) = d.nodeAt (namePath f.name) := by
    rw [nodeAt_eq (namePath_ne_nil _), nodeAt_eq (namePath_ne_nil _), h]
  simp only [Unseen, Differs, needsPull, pathExists, metadataLen, hnode]

theorem not_unseen_of_missing (h : d.pathExists (namePath f.name) = false) :
    ¬ Unseen sha256 d f := by
  rintro ⟨-, hn⟩
  simp [needsPull, h] at hn

theorem not_unseen_of_node_eq_none (h : d.node (namePath f.name) = none) : ¬ Unseen sha256 d f := by
  apply not_unseen_of_missing
  simp [pathExists, nodeAt_eq (namePath_ne_nil _), h]

theorem not_unseen_of_hashes {node : DiskNode} (h : d.node (namePath f.name) = some node)
    (hh : nodeHashes sha256 node = f.blockHashes) : ¬ Unseen sha256 d f := by
  rintro ⟨hd, -⟩
  apply hd
  rw [nodeAt_eq (namePath_ne_nil _), h, Option.map_some, hh]

/-- What is hidden in a faded disk was hidden before. -/
theorem Fades.unseen (h : Fades d d') (hv : Visible (namePath f.name))
    (hu : Unseen sha256 d' f) : Unseen sha256 d f := by
  rcases h _ hv (namePath_ne_nil _) with h | h
  · exact (unseen_congr h).mp hu
  · exact absurd hu (not_unseen_of_node_eq_none h)

/-- A directory that appears fits a record without blocks. -/
theorem MadeTo.unseen (h : MadeTo path d d' (namePath f.name))
    (hroom : namePath f.name <+: path → d.node (namePath f.name) = none → f.blocks = [])
    (hu : Unseen sha256 d' f) : Unseen sha256 d f := by
  rcases h with h | ⟨hle, hnone, now, hmade⟩
  · exact (unseen_congr h).mp hu
  · refine absurd hu (not_unseen_of_hashes hmade ?_)
    simp [nodeHashes, FileInfo.blockHashes, hroom hle hnone]

/-- Every live record that differs unseen waits. All recorded names are visible. -/
structure Followed (sha256 : Bytes → Bytes) (st : FolderState) (waiting : List FileInfo) :
    Prop where
  visible : ∀ f ∈ st.db.entries, Visible (namePath f.name)
  waits : ∀ f ∈ st.db.entries, f.isDeleted = false → Unseen sha256 st.disk f → f ∈ waiting

theorem Followed.mono (h : Followed sha256 st waiting)
    (hsub : ∀ f ∈ waiting, f.isDeleted = false → f ∈ needed) : Followed sha256 st needed :=
  ⟨h.visible, fun f hf hlive hu => hsub f (h.waits f hf hlive hu) hlive⟩

theorem Followed.fades (h : Followed sha256 ⟨s.db, d⟩ waiting) (hd : Fades d d') :
    Followed sha256 ⟨s.db, d'⟩ waiting :=
  ⟨h.visible, fun f hf hlive hu => h.waits f hf hlive (hd.unseen (h.visible f hf) hu)⟩

/-- A record joins that waits, or that the disk shows to be missing. -/
theorem Followed.upsert (h : Followed sha256 st waiting) (hv : Visible (namePath f.name))
    (hf : f.isDeleted = false → Unseen sha256 st.disk f → f ∈ waiting) :
    Followed sha256 ⟨st.db.upsert f, st.disk⟩ waiting := by
  constructor
  · intro g hg
    rcases mem_upsert.mp hg with rfl | ⟨hg, -⟩
    · exact hv
    · exact h.visible g hg
  · intro g hg hlive hu
    rcases mem_upsert.mp hg with rfl | ⟨hg, -⟩
    · exact hf hlive hu
    · exact h.waits g hg hlive hu

section index
variable {out : Option FileInfo}

theorem IndexEnv.FileProcessed.find?_other {name : String} (h : FileProcessed ienv s remote out t)
    (hname : name ≠ remote.name) : t.db.find? name = s.db.find? name := by
  have hother : (s.db.upsert remote).find? name = s.db.find? name := by
    rw [find?_upsert, if_neg (Ne.symm hname)]
  cases h <;> first | rfl | exact hother

/-- Only the file itself is found to be needed, and not if it is ignored. -/
theorem IndexEnv.FileProcessed.mem_out (h : FileProcessed ienv s remote out t) (hf : f ∈ out) :
    f = remote ∧ ∀ r, s.db.find? remote.name = some r → needsUpdate r remote ≠ .ignore := by
  have hknown : ∀ {localFile}, s.db.find? remote.name = some localFile →
      needsUpdate localFile remote ≠ .ignore →
      ∀ r, s.db.find? remote.name = some r → needsUpdate r remote ≠ .ignore := by
    intro localFile hl hn r hr
    cases hl.symm.trans hr
    exact hn
  cases h with
  | rejected | unknownDeletion | ignored | localWins | renamed => cases hf
  | new hnone hd hname =>
    cases hf
    refine ⟨rfl, fun r hr => ?_⟩
    cases hnone.symm.trans hr
  | updated localFile hl hn hname | sameVersion localFile hl hn hc hname =>
    exact ⟨(name_of_pulledUnlessDeleted hf).1, hknown hl (by simp [hn])⟩
  | mergedLater localFile hl hc hw ht hname =>
    exact ⟨(name_of_pulledUnlessDeleted hf).1, hknown hl (needsUpdate_ne_ignore hc)⟩

/-- One file of an index: what is recorded is needed, or shown to be missing. -/
theorem IndexEnv.FileProcessed.followed (h : FileProcessed ienv s remote out t)
    (hs : Followed sha256 s waiting) (hv : Visible (namePath remote.name)) :
    Followed sha256 t (waiting ++ out.toList) := by
  have hmore : Followed sha256 s (waiting ++ out.toList) :=
    hs.mono fun f hf _ => mem_append_left _ hf
  have hpulled : remote.isDeleted = false →
      remote ∈ waiting ++ (pulledUnlessDeleted remote).toList := by
    intro hlive
    simp [pulledUnlessDeleted, hlive]
  cases h with
  | rejected | unknownDeletion | ignored | localWins | sameVersion => exact hmore
  | new hnone hd hname => exact hmore.upsert hv fun _ _ => by simp
  | updated | mergedLater => exact hmore.upsert hv fun hlive _ => hpulled hlive
  | renamed localFile disk hl hc hw ht hname hdisk =>
    have hfaded : Followed sha256 ⟨s.db, disk⟩ (waiting ++ (none : Option FileInfo).toList) :=
      hmore.fades hdisk.fades
    refine hfaded.upsert hv fun _ hu => ?_
    exact absurd hu (not_unseen_of_missing (hdisk.not_pathExists hv))

/-- The files of a message, one after the other: those that are needed, and what they leave. -/
theorem ends_collect_followed (hs : Followed sha256 s waiting)
    (hnodup : (files.map (·.name)).Nodup) (hv : ∀ f ∈ files, Visible (namePath f.name)) :
    Ends (collect ienv.processFile files)
      (fun needed t => Followed sha256 t (waiting ++ needed) ∧ needed.Sublist files ∧
        ∀ f ∈ needed, ∀ r, s.db.find? f.name = some r → needsUpdate r f ≠ .ignore)
      (fun _ => True) s := by
  induction files generalizing s waiting with
  | nil => simpa [collect] using hs
  | cons remote files ih =>
    rw [map_cons, nodup_cons] at hnodup
    simp only [collect, ends_bind, ends_pure]
    refine IndexEnv.ends_processFile.imp (fun out t ht => ?_) fun t _ => trivial
    have hs' := ht.followed hs (hv remote mem_cons_self)
    refine (ih hs' hnodup.2 fun f hf => hv f (mem_cons_of_mem _ hf)).imp
      (fun needed u hu => ?_) fun _ => id
    obtain ⟨hfollowed, hsub, hkept⟩ := hu
    refine ⟨by simpa using hfollowed, ?_, ?_⟩
    · cases out with
      | none => exact hsub.cons remote
      | some w =>
        cases (ht.mem_out rfl).1
        exact hsub.cons_cons remote
    · intro f hf r hr
      rcases mem_append.mp hf with hf | hf
      · obtain ⟨rfl, hn⟩ := ht.mem_out (by simpa using hf)
        exact hn r hr
      · have hne : f.name ≠ remote.name := fun he => hnodup.1 (he ▸ mem_map_of_mem (hsub.subset hf))
        exact hkept f hf r (by rw [ht.find?_other hne, hr])

end index

theorem mem_queueFile_left (h : f ∈ pending) (g : FileInfo) : f ∈ queueFile pending g := by
  unfold queueFile
  split
  · exact h
  · exact mem_append_left _ h

theorem mem_foldl_queueFile_left (h : f ∈ pending) (files : List FileInfo) :
    f ∈ files.foldl queueFile pending := by
  induction files generalizing pending with
  | nil => exact h
  | cons x files ih => exact ih (mem_queueFile_left h x)

/-- A file of a name that is not queued yet is queued. -/
theorem mem_foldl_queueFile_right (hf : f ∈ files) (hnodup : (files.map (·.name)).Nodup)
    (hnew : ∀ w ∈ pending, w.name ≠ f.name) : f ∈ files.foldl queueFile pending := by
  induction files generalizing pending with
  | nil => cases hf
  | cons x files ih =>
    rw [map_cons, nodup_cons] at hnodup
    rw [foldl_cons]
    rcases mem_cons.mp hf with rfl | hmem
    · apply mem_foldl_queueFile_left
      have hany : (pending.any fun w => decide (w.name = f.name)) = false := by simpa using hnew
      simp [queueFile, hany]
    · refine ih hmem hnodup.2 fun w hw => ?_
      rcases mem_queueFile hw with hw | rfl
      · exact hnew w hw
      · exact fun he => hnodup.1 (he ▸ mem_map_of_mem hmem)

/-- Every entry of `waiting` but `info` is in `needed`. -/
def LeavesBut (info : FileInfo) (waiting needed : List FileInfo) : Prop :=
  ∀ w ∈ waiting, w = info ∨ w ∈ needed

/-- The live records that are missing on the way to a path have no blocks: they are
directories. -/
def RoomTo (st : FolderState) (path : List String) : Prop :=
  ∀ f ∈ st.db.entries, f.isDeleted = false → namePath f.name <+: path →
    st.disk.node (namePath f.name) = none → f.blocks = []

/-- If the entry is recorded, then its file fits it or is found by `check_needed_files`. -/
def Recoverable (sha256 : Bytes → Bytes) (st : FolderState) (info : FileInfo) : Prop :=
  info ∈ st.db.entries → ¬ Unseen sha256 st.disk info

/-- The content a download that succeeds puts in place. -/
def PullEnv.received (env : PullEnv) (st : FolderState) (info : FileInfo) : Option Bytes :=
  match env.findLocalCopySource st info with
  | .ok (some source) => (st.disk.read? source).map fun content =>
      if source = tempPathFor (namePath info.name) then [] else content
  | .ok none =>
    match env.fetchBlocks info.name info.blocks 0 [] with
    | (.ok _, written) => some written
    | (.error _, _) => none
  | .error _ => none

/-- A download writes only where it may, and delivers the content of its record or fails when
the record can be found again. -/
structure DownloadGuard (sha256 : Bytes → Bytes) (env : PullEnv) (st : FolderState)
    (info : FileInfo) : Prop where
  room : RoomTo st (namePath info.name).dropLast
  below : ∀ f ∈ st.db.entries, f.isDeleted = false → namePath info.name <+: namePath f.name →
    f.name = info.name
  plain : st.disk.isSymlink (tempPathFor (namePath info.name)) = false
  stored : env.fault .dbUpdate = none
  ends : ∀ r, env.downloadFile st info = some r →
    match r.result with
    | .ok => r.merged = false ∧ ∀ content ∈ env.received st info,
        (contentBlocks sha256 content).map (·.hash) = info.blockHashes
    | .error _ => Recoverable sha256 st info
    | .panicked => False

def TaskGuard (sha256 : Bytes → Bytes) (env : PullEnv) (st : FolderState) (info : FileInfo) :
    Prop :=
  info.isDeleted = true ∨
    match info.fileType with
    | .symlink => Recoverable sha256 st info
    | .directory => RoomTo st (namePath info.name) ∧ (Recoverable sha256 st info ∨
        info.blocks = [] ∧ (env.createDirectory st info).1 = .ok)
    | .file => DownloadGuard sha256 env st info

/-- A task is done with its entry; records that differ unseen are other ones and differed
before. -/
theorem Followed.finish (h : Followed sha256 st waiting) (hsub : LeavesBut info waiting needed)
    (hd : ∀ f ∈ st.db.entries, f.isDeleted = false → Unseen sha256 d' f →
      f ≠ info ∧ Unseen sha256 st.disk f) : Followed sha256 ⟨st.db, d'⟩ needed := by
  refine ⟨h.visible, fun f hf hlive hu => ?_⟩
  obtain ⟨hne, hbefore⟩ := hd f hf hlive hu
  rcases hsub f (h.waits f hf hlive hbefore) with he | hmem
  · exact absurd he hne
  · exact hmem

namespace PullEnv

theorem followed_deleteFile (h : Followed sha256 st waiting) (hv : Visible (namePath info.name))
    (hdel : info.isDeleted = true) (hsub : LeavesBut info waiting needed) :
    Followed sha256 (env.deleteFile st info).2 needed := by
  have hother : Followed sha256 ⟨st.db, (env.deleteFile st info).2.disk⟩ needed := by
    refine h.finish hsub fun f hf hlive hu => ⟨?_, fades_deleteFile.unseen (h.visible f hf) hu⟩
    rintro rfl
    rw [hdel] at hlive
    cases hlive
  have hnew : Followed sha256 ⟨st.db.upsert info, (env.deleteFile st info).2.disk⟩ needed := by
    refine hother.upsert hv fun hlive => ?_
    rw [hdel] at hlive
    cases hlive
  rcases env.deleteFile_spec.2.2 with hdb | hdb
  · rw [← hdb] at hother
    exact hother
  · rw [← hdb] at hnew
    exact hnew

theorem madeTo_createDirectory : MadeTo (namePath info.name) st.disk
    (env.createDirectory st info).2.disk q := by
  rcases env.createDirectory_spec.2.2 with h | h
  · exact .inl (by rw [h])
  · exact madeTo_createDirAll h q

/-- A directory that was made, or was there, has no blocks. -/
theorem createDirectory_hashes (sha256 : Bytes → Bytes)
    (h : (env.createDirectory st info).1 = .ok) :
    ∃ node, (env.createDirectory st info).2.disk.node (namePath info.name) = some node ∧
      nodeHashes sha256 node = [] := by
  have hnil := namePath_ne_nil info.name
  unfold createDirectory at h ⊢
  simp only at h ⊢
  split at h
  · cases h
  · by_cases hp : st.disk.pathExists (namePath info.name)
    · simp only [hp, if_true] at h ⊢
      by_cases hd : st.disk.isDir (namePath info.name)
      · simp only [hd, Bool.not_true, Bool.false_eq_true, if_false]
        unfold Disk.isDir at hd
        rw [nodeAt_eq hnil] at hd
        split at hd
        next hn => exact ⟨_, hn, rfl⟩
        next hn => exact ⟨_, hn, rfl⟩
        · cases hd
      · simp [hd] at h
    · simp only [hp, Bool.false_eq_true, if_false] at h ⊢
      split at h
      · cases h
      next d1 h1 =>
        simp only [node_createDirAll (orFault_eq_ok.mp h1).2, prefix_refl, if_true]
        -- what is there already is a dangling link
        unfold pathExists at hp
        rw [nodeAt_eq hnil] at hp
        cases hn : st.disk.node (namePath info.name) with
        | none => exact ⟨_, rfl, rfl⟩
        | some node =>
          cases node with
          | file | dir => simp [hn] at hp
          | symlink target modified view => exact ⟨_, rfl, rfl⟩

theorem followed_createDirectory (h : Followed sha256 st waiting)
    (hroom : RoomTo st (namePath info.name))
    (hg : Recoverable sha256 st info ∨ info.blocks = [] ∧ (env.createDirectory st info).1 = .ok)
    (hsub : LeavesBut info waiting needed) :
    Followed sha256 (env.createDirectory st info).2 needed := by
  have hdone : Followed sha256 ⟨st.db, (env.createDirectory st info).2.disk⟩ needed := by
    refine h.finish hsub fun f hf hlive hu => ?_
    have hbefore : Unseen sha256 st.disk f := madeTo_createDirectory.unseen (hroom f hf hlive) hu
    refine ⟨?_, hbefore⟩
    rintro rfl
    rcases hg with hg | ⟨hblocks, hok⟩
    · exact hg hf hbefore
    · obtain ⟨node, hnode, hhashes⟩ := createDirectory_hashes sha256 hok
      refine not_unseen_of_hashes hnode ?_ hu
      simp [hhashes, FileInfo.blockHashes, hblocks]
  have hdb : (env.createDirectory st info).2.db = st.db := createDirectory_spec.2.1
  rw [← hdb] at hdone
  exact hdone

variable {r : Downloaded}

theorem read?_downloadFile (h : env.downloadFile st info = some r)
    (hok : r.result = .ok) (hm : r.merged = false) : ∃ content ∈ env.received st info,
      r.state.disk.read? (namePath info.name) = some content := by
  unfold downloadFile at h
  split at h
  · cases h
    cases hok
  · split at h
    · cases h
      cases hok
    next source hsource =>
      obtain ⟨found, hfound⟩ := read?_findLocalCopySource hsource
      obtain rfl : r = ⟨_, (env.copyFromLocal st info source).2, false⟩ := (Option.some.inj h).symm
      refine ⟨_, ?_, read?_copyFromLocal hfound (Prod.ext hok rfl)⟩
      simp [received, hsource, hfound]
    next hnone =>
      obtain ⟨written, hfetch, hread⟩ := read?_downloadBlocks h hok hm
      exact ⟨written, by simp [received, hnone, hfetch], hread⟩

/-- The record of a finished download fits its file. -/
theorem not_unseen_downloadFile (hg : DownloadGuard sha256 env st info)
    (hv : Visible (namePath info.name)) (h : env.downloadFile st info = some r)
    (hok : r.result = .ok) : ¬ Unseen sha256 r.state.disk info := by
  obtain ⟨result, state, merged⟩ := r
  cases hok
  obtain ⟨hm, hhashes⟩ := hg.ends _ h
  obtain ⟨content, hcontent, hread⟩ := read?_downloadFile h rfl hm
  obtain ⟨modified, hn⟩ := file_of_read? hread ((downloads h).isSymlink_target hv hg.plain)
  rw [nodeAt_eq (namePath_ne_nil _)] at hn
  exact not_unseen_of_hashes hn (hhashes content hcontent)

theorem followed_downloadFile (h : Followed sha256 st waiting)
    (hv : Visible (namePath info.name)) (hg : DownloadGuard sha256 env st info)
    (hsub : LeavesBut info waiting needed) (hr : env.downloadFile st info = some r) :
    Followed sha256 r.state needed := by
  have hdown := downloads hr
  -- off the target only directories appear
  have hoff : ∀ f ∈ st.db.entries, f.isDeleted = false → f.name ≠ info.name →
      Unseen sha256 r.state.disk f → Unseen sha256 st.disk f := by
    intro f hf hlive hname
    refine (hdown.madeTo (h.visible f hf).ordinary (namePath_ne_nil _) fun hle => ?_).unseen
      (hg.room f hf hlive)
    exact hname (hg.below f hf hlive hle)
  have hends := hg.ends r hr
  have hnew := not_unseen_downloadFile hg hv hr
  obtain ⟨result, state, merged⟩ := r
  cases result with
  | panicked => exact hends.elim
  | error e =>
    have hdb : state.db = st.db := by
      cases hdown with
      | untouched => rfl
      | prepared => rfl
      | installed _ _ _ _ _ _ _ _ _ hi =>
        cases hi with
        | failed => rfl
    have htarget := hdown.target_of_error hv
    have hdone : Followed sha256 ⟨st.db, state.disk⟩ needed := by
      refine h.finish hsub fun f hf hlive hu => ?_
      have hbefore : Unseen sha256 st.disk f := by
        by_cases hname : f.name = info.name
        · rw [← hname] at htarget
          rcases htarget with ht | ht
          · exact (unseen_congr ht).mp hu
          · exact absurd hu (not_unseen_of_node_eq_none ht)
        · exact hoff f hf hlive hname hu
      refine ⟨?_, hbefore⟩
      rintro rfl
      exact hends hf hbefore
    rw [← hdb] at hdone
    exact hdone
  | ok =>
    have hdb : state.db = st.db.upsert info := by
      cases hdown with
      | installed _ recorded _ _ _ _ hrec _ _ hi =>
        cases hi with
        | done =>
          cases hrec hends.1
          simp [hg.stored]
    constructor
    · intro f hf
      rw [hdb] at hf
      rcases mem_upsert.mp hf with rfl | ⟨hf, -⟩
      · exact hv
      · exact h.visible f hf
    · intro f hf hlive hu
      rw [hdb] at hf
      rcases mem_upsert.mp hf with rfl | ⟨hf, hname⟩
      · exact absurd hu (hnew rfl)
      · rcases hsub f (h.waits f hf hlive (hoff f hf hlive hname hu)) with rfl | hmem
        · exact absurd rfl hname
        · exact hmem

theorem followed_pullTask (h : Followed sha256 st waiting)
    (hv : Visible (namePath info.name)) (hg : TaskGuard sha256 env st info)
    (hsub : LeavesBut info waiting needed) (hr : env.pullTask st info = some r) :
    Followed sha256 r.state needed := by
  unfold pullTask at hr
  split at hr
  next hdel =>
    obtain rfl : r = ⟨_, (env.deleteFile st info).2, false⟩ := (Option.some.inj hr).symm
    exact followed_deleteFile h hv hdel hsub
  next hlive =>
    rcases hg with hg | hg
    · exact absurd hg hlive
    · cases htype : info.fileType with
      | directory =>
        simp only [htype] at hr hg
        obtain rfl : r = ⟨_, (env.createDirectory st info).2, false⟩ := (Option.some.inj hr).symm
        exact followed_createDirectory h hg.1 hg.2 hsub
      | file =>
        simp only [htype] at hr hg
        exact followed_downloadFile h hv hg hsub hr
      | symlink =>
        simp only [htype] at hr hg
        cases hr
        refine h.finish hsub fun f hf _ hu => ⟨?_, hu⟩
        rintro rfl
        exact hg hf hu

end PullEnv

/-- Everything that waits or is recorded is visible, and what differs unseen waits. -/
structure Tracked (sha256 : Bytes → Bytes) (m : FolderModel) : Prop where
  followed : Followed sha256 m.folder m.waiting
  visible : ∀ f ∈ m.waiting, Visible (namePath f.name)

/-- A message that is handled to its end, names each file once and visibly, and changes no
name for which an entry is queued. -/
structure IndexGuard (m : FolderModel) (env : IndexEnv) (full : Bool) (files : List FileInfo) :
    Prop where
  handled : (result? (if full then env.handleIndex files else env.handleIndexUpdate files)
    m.folder).isSome
  nodup : (files.map (·.name)).Nodup
  visible : ∀ f ∈ files, Visible (namePath f.name)
  entry : ∀ f ∈ files, (∃ r, m.folder.db.find? f.name = some r ∧ needsUpdate r f = .ignore) ∨
    ∀ w ∈ m.pending, w.name ≠ f.name

def PullGuard (sha256 : Bytes → Bytes) (m : FolderModel) : FolderEvent → Prop
  | .index env full files => IndexGuard m env full files
  | .scan .. | .incrementalScan .. => False
  | .takePending | .endPull => True
  | .planPull env pull => (planTasks env m.folder pull.files).1 = none →
      ∀ f ∈ pull.files, f.isDeleted = false → Recoverable sha256 m.folder f
  | .progress _ info _ => RoomTo m.folder (namePath info.name).dropLast
  | .task env info => TaskGuard sha256 env m.folder info

theorem tracked_indexMessage {full : Bool} (hm : Tracked sha256 m)
    (hg : IndexGuard m ienv full files) : Tracked sha256 (m.indexMessage ienv full files) := by
  have hcollect : Ends (collect ienv.processFile files) _ _ m.folder :=
    ends_collect_followed hm.followed hg.nodup hg.visible
  refine indexMessage_of_ends (Tracked sha256)
    (((IndexEnv.ends_handle hcollect (fun _ _ _ => trivial) trivial).of_isSome hg.handled).imp
      (fun outcome t ht => ?_) fun _ h => h.elim)
  obtain ⟨hfollowed, hsub, hkept⟩ := ht
  constructor
  · refine hfollowed.mono fun f hf _ => ?_
    simp only [waiting, handleRemoteIndex, mem_append] at hf ⊢
    rcases hf with (hf | hf) | hf
    · exact .inl (mem_foldl_queueFile_left hf _)
    · exact .inr hf
    · refine .inl (mem_foldl_queueFile_right hf (hg.nodup.sublist (hsub.map _)) ?_)
      rcases hg.entry f (hsub.subset hf) with ⟨r, hr, hi⟩ | hnew
      · exact absurd hi (hkept f hf r hr)
      · exact hnew
  · intro f hf
    rcases mem_waiting_handleRemoteIndex hf with hf | hf
    · exact hm.visible f hf
    · exact hg.visible f (hsub.subset hf)

theorem fades_planTasks (env : PullEnv) (st : FolderState) (taken : List FileInfo) :
    Fades st.disk (planTasks env st taken).2 := by
  have hclean : Fades st.disk (env.cleanupSttrash st.disk) :=
    fades_of_sameOutside sameOutside_cleanupSttrash fun q hq hv =>
      absurd hq (hv.not_le not_visible_sttrash)
  rcases planTasks_cases env st taken with hplan | ⟨needed, hneeded, hplan⟩
  · rw [hplan]
    exact .refl
  · rw [hplan]
    exact hclean

/-- A planned pull keeps the live entries it took. -/
theorem mem_planTasks_of_taken {tasks : List FileInfo} {disk : Disk}
    (h : planTasks env st waiting = (some tasks, disk)) (hf : f ∈ waiting)
    (hlive : f.isDeleted = false) : f ∈ tasks := by
  rcases planTasks_cases env st waiting with hplan | ⟨needed, hneeded, hplan⟩
  · cases h.symm.trans hplan
  · cases h.symm.trans hplan
    have hmem := mem_foldl_queueFile_left hf needed
    unfold withinDeleteQuota
    simp only
    split
    · simp [hmem, hlive]
    · exact hmem

theorem tracked_planPull {before later : List Pull} {pull : Pull}
    (hpulls : m.pulls = before ++ pull :: later) (hm : Tracked sha256 m)
    (hg : PullGuard sha256 m (.planPull env pull)) :
    Tracked sha256 (m.planPull env before pull later) := by
  have hfades := fades_planTasks env m.folder pull.files
  have hvisible := hm.visible
  have hfollowed := hm.followed
  simp only [FolderModel.waiting, hpulls, List.flatMap_append, List.flatMap_cons] at hvisible hfollowed
  unfold FolderModel.planPull
  split
  rename_i tasks disk htasks
  rw [htasks] at hfades
  have hfaded := hfollowed.fades hfades
  split
  · constructor
    · refine ⟨hfaded.visible, fun f hf hlive hu => ?_⟩
      have hw := hfaded.waits f hf hlive hu
      have hbefore := hfades.unseen (hfaded.visible f hf) hu
      simp only [waiting, flatMap_append, mem_append] at hw ⊢
      rcases hw with hw | hw | hw | hw
      · exact .inl hw
      · exact .inr (.inl hw)
      · exact absurd hbefore (hg (by rw [htasks]) f hw hlive hf)
      · exact .inr (.inr hw)
    · intro f hf
      apply hvisible
      simp only [waiting, flatMap_append, mem_append] at hf ⊢
      tauto
  · constructor
    · refine hfaded.mono fun f hf hlive => ?_
      simp only [waiting, flatMap_append, flatMap_cons, mem_append] at hf ⊢
      have := mem_planTasks_of_taken (f := f) htasks
      tauto
    · intro f hf
      simp only [waiting, flatMap_append, flatMap_cons, mem_append] at hf hvisible
      rcases hf with hf | hf | hf | hf
      · exact hvisible f (.inl hf)
      · exact hvisible f (.inr (.inl hf))
      · rcases mem_planTasks htasks hf with hf | hf
        · exact hvisible f (.inr (.inr (.inl hf)))
        · exact hm.followed.visible f hf
      · exact hvisible f (.inr (.inr (.inr hf)))

theorem prepared_partialDownload {written : Bytes} {now : Mtime} :
    d.partialDownload path written now = d ∨
      Prepared d path now (d.partialDownload path written now) := by
  unfold partialDownload
  split
  · exact .inl rfl
  next d1 h1 =>
    have hp := Prepared.of_createDirAll h1
    split
    · exact .inr hp
    next d2 h2 => exact .inr (hp.write h2)

theorem tracked_step {e : FolderEvent} (hs : FolderStep m e m') (hg : PullGuard sha256 m e)
    (hm : Tracked sha256 m) : Tracked sha256 m' := by
  cases hs with
  | index => exact tracked_indexMessage hm hg
  | scan | incrementalScan => exact hg.elim
  | takePending hpull =>
    have hsame : ∀ f, f ∈ m.takePending.waiting ↔ f ∈ m.waiting := by
      intro f
      simp [FolderModel.waiting, FolderModel.takePending, or_comm]
    exact ⟨hm.followed.mono fun f hf _ => (hsame f).mpr hf,
      fun f hf => hm.visible f ((hsame f).mp hf)⟩
  | @planPull penv before pull later hpulls hp => exact tracked_planPull hpulls hm hg
  | @progress penv before pull later info written hpulls hp hinfo hvalid hlive hfile =>
    refine ⟨⟨hm.followed.visible, fun f hf hl hu => hm.followed.waits f hf hl ?_⟩, hm.visible⟩
    rcases prepared_partialDownload with hsame | hprep
    · rwa [hsame] at hu
    · exact (hprep.madeTo (hm.followed.visible f hf).ne_tempPathFor).unseen (hg f hf hl) hu
  | @task penv before pull later first info rest r hpulls hp hfiles hr =>
    have hinfo : info ∈ m.waiting := by simp [waiting, hpulls, hfiles]
    have hvisible := hm.visible
    refine ⟨followed_pullTask hm.followed (hm.visible info hinfo) hg ?_ hr, ?_⟩
    · intro w hw
      simp only [waiting, hpulls, hfiles, flatMap_append, flatMap_cons,
        mem_append, mem_cons] at hw ⊢
      tauto
    · intro f hf
      apply hvisible
      simp only [waiting, hpulls, hfiles, flatMap_append, flatMap_cons,
        mem_append, mem_cons] at hf ⊢
      tauto
  | @endPull before pull later hpulls hp hfiles =>
    have hsame : ∀ f, f ∈ ({ m with status := .idle, pulls := before ++ later }).waiting ↔
        f ∈ m.waiting := by
      intro f
      simp [waiting, hpulls, hfiles]
    exact ⟨hm.followed.mono fun f hf _ => (hsame f).mpr hf,
      fun f hf => hm.visible f ((hsame f).mp hf)⟩

/-- In every run of index messages and pulls that leave no record to be lost, once no pull is
under way, each live record whose file differs is queued, or found by every check that returns. -/
theorem pulls_never_forgotten {m₀ : FolderModel} (h0 : Tracked sha256 m₀)
    (hrun : Transition.Reach FolderStep (PullGuard sha256) m₀ m) (hidle : m.pulls = [])
    (hf : f ∈ m.folder.db.entries) (hlive : f.isDeleted = false)
    (hd : Differs sha256 m.folder.disk f) :
    f ∈ m.pending ∨ ∀ (env : PullEnv) (needed : List FileInfo),
      env.checkNeededFiles m.folder = .ok needed → f ∈ needed := by
  have hm : Tracked sha256 m := hrun.invariant h0 fun hg hs hm => tracked_step hs hg hm
  by_cases hn : needsPull m.folder.disk f = true
  · exact .inr fun env needed hcheck => mem_checkNeededFiles hcheck hf hlive hn
  · left
    have hw := hm.followed.waits f hf hlive ⟨hd, by simpa using hn⟩
    simpa [waiting, hidle] using hw

/-- A device that nobody sends blocks to. -/
def deafEnv : PullEnv := { calmEnv with blockSource := none }

/-- A device that cannot list its database. -/
def blindEnv : PullEnv :=
  { calmEnv with fault := fun step => if step = .dbFolderFiles then some "EIO" else none }

/-- The first version is accepted, and its pull planned. -/
def plannedPull : FolderModel :=
  ((idleFolder .empty .empty).indexMessage calmIndex false [peerVersion 1 7]).takePending.planPull
    deafEnv [] ⟨.idle, false, [peerVersion 1 7]⟩ []

/-- A download that fails before there is any file is found again. -/
theorem pulls_never_forgotten_missing :
    ∃ r, deafEnv.pullTask plannedPull.folder (peerVersion 1 7) = some r ∧ r.result ≠ .ok ∧
      Differs id r.state.disk (peerVersion 1 7) ∧
      (peerVersion 1 7 ∈ plannedPull.pending ∨ ∀ (env : PullEnv) (needed : List FileInfo),
        env.checkNeededFiles r.state = .ok needed → peerVersion 1 7 ∈ needed) := by
  have h0 : Tracked id (idleFolder .empty .empty) := by
    refine ⟨⟨?_, ?_⟩, ?_⟩ <;> intro f hf <;> cases hf
  have hplan : Transition.Reach FolderStep (PullGuard id) (idleFolder .empty .empty)
      plannedPull := by
    refine ((Relation.ReflTransGen.single ⟨.index calmIndex false [peerVersion 1 7],
      ⟨by decide, by decide, by decide, ?_⟩, .index⟩).tail
      ⟨.takePending, trivial, .takePending (by decide)⟩).tail
      ⟨.planPull deafEnv ⟨.idle, false, [peerVersion 1 7]⟩, ?_, @planPull _ _ [] _ [] rfl rfl⟩
    · intro h
      cases h
    · exact fun f _ => .inr fun w hw => by cases hw
  have hguard : TaskGuard id deafEnv plannedPull.folder (peerVersion 1 7) := by
    refine .inr ⟨?_, by decide, by decide, rfl, ?_⟩
    · unfold RoomTo
      decide
    · intro r hr
      cases hr
      exact fun _ => by decide
  have htask : FolderStep plannedPull (.task deafEnv (peerVersion 1 7)) _ :=
    @task _ _ [] _ [] [] _ [] _ rfl rfl rfl rfl
  have hfailed := hplan.next htask hguard
  refine ⟨_, rfl, by decide, by decide, ?_⟩
  exact pulls_never_forgotten (m := { plannedPull with folder := _, status := .idle, pulls := [] })
    h0 (hfailed.next (@endPull _ [] _ [] rfl rfl rfl) trivial)
    rfl (by decide) rfl (by decide)

/-- The first version is there. The second has the same size: when its download fails, or when
the check fails after the queue was taken, nothing leads back to it. -/
theorem pulls_forgotten :
    let v := peerVersion 2 8
    let m₀ := idleFolder (empty.upsert (peerVersion 1 7)) (diskWith [7])
    let m₁ := m₀.indexMessage calmIndex false [v]
    let m₂ := m₁.takePending
    let m₃ := m₂.planPull deafEnv [] ⟨.idle, false, m₁.pending⟩ []
    let m₃' := m₂.planPull blindEnv [] ⟨.idle, false, m₁.pending⟩ []
    let Forgotten := fun m : FolderModel => m.pulls = [] ∧ v ∈ m.folder.db.entries ∧
      Differs id m.folder.disk v ∧ m.pending = [] ∧ calmEnv.checkNeededFiles m.folder = .ok []
    v.isDeleted = false ∧
    FolderStep m₀ (.index calmIndex false [v]) m₁ ∧ FolderStep m₁ .takePending m₂ ∧
    FolderStep m₂ (.planPull deafEnv ⟨.idle, false, m₁.pending⟩) m₃ ∧
    (∃ m₄, FolderStep m₃ (.task deafEnv v) m₄ ∧ ∃ m₅, FolderStep m₄ .endPull m₅ ∧ Forgotten m₅) ∧
    FolderStep m₂ (.planPull blindEnv ⟨.idle, false, m₁.pending⟩) m₃' ∧ Forgotten m₃' := by
  refine ⟨rfl, .index, .takePending (by decide), .planPull rfl rfl, ⟨_,
    @task _ _ [] _ [] [] _ [] _ rfl rfl rfl rfl, _,
    @endPull _ [] _ [] rfl rfl rfl, ?_⟩, .planPull rfl rfl, ?_⟩
  · exact ⟨rfl, by decide, by decide, rfl, rfl⟩
  · exact ⟨rfl, by decide, by decide, rfl, rfl⟩

end Syncthing
