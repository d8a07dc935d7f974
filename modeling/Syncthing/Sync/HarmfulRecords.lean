import Syncthing.Sync.PullArithmetic

/-! For every record with a number that a pull gets wrong there is a folder in which it does. -/
namespace Syncthing

open PullEnv List Option FileStore Disk FileInfo PullLibrary

/-! ### Dates and progress that go wrong -/

variable {env : PullEnv} {st : FolderState} {info : FileInfo} {out : Downloaded}
  {lib : PullLibrary} {source : BlockInfo → Nat → Except SyncError Bytes}

namespace PullEnv

/-- With nothing in its way, a filled temporary file is installed. -/
theorem install_of_fillsTemp (hf : env.FillsTemp st info) (hversioner : env.versioner = none)
    (hrename : env.fault (.rename 0) = none) (hset : env.fault .setMtime = none)
    (htarget : st.disk.node (namePath info.name) = none)
    (htemp : st.disk.isSymlink (tempPathFor (namePath info.name)) = false)
    (h : env.downloadFile st info = some out) : (systemTime info = none ∧ out.result = .panicked) ∨
      ∃ content t, systemTime info = some t ∧ out.result = .ok ∧
        out.state.disk.nodeAt (namePath info.name) = some (.file content t) := by
  have hp := namePath_ne_nil info.name
  obtain ⟨result, state, merged⟩ := out
  cases reaches h with
  | before _ _ hnot => exact absurd hf hnot
  | install d recorded _ hfetched _ _ hi =>
    simp only [archiveExisting, hversioner] at hi
    obtain ⟨content, hread⟩ := hfetched.content
    have hready : Renames (tempPathFor (namePath info.name)) (namePath info.name) d := by
      refine ⟨by rw [hread]; rfl, hfetched.parent, ?_⟩
      rw [holdsDir, hfetched.node_target hp, htarget]
    have hren : (env.renameWithRetry d (tempPathFor (namePath info.name))
        (namePath info.name)).1 = true := by
      rw [← Bool.not_eq_false,
        renameWithRetry_refused_iff hp (tempPathFor_length hp) (tempPathFor_ne hp) hready]
      intro hrefuses
      simpa [hrename] using hrefuses 0 (by omega)
    obtain ⟨d1, hc, hr⟩ := env.renameWithRetry_cases d (tempPathFor (namePath info.name))
      (namePath info.name)
    rw [hren] at hr
    have hnode := hc.nodeAt_rename (tempPathFor_ne_nil _) hp (tempPathFor_ne hp) hr
    -- the temporary file is a file, and no link to one
    obtain ⟨modified, hfile⟩ := file_of_read? hread (hfetched.plain htemp)
    unfold install at hi
    simp only [hren, Bool.not_true, Bool.false_eq_true, if_false, hset, isSome_none] at hi
    split at hi
    next htime =>
      cases hi
      exact .inl ⟨htime, rfl⟩
    next t htime =>
      cases hi
      refine .inr ⟨content, t, htime, rfl, ?_⟩
      simp only [setMtime, hnode, hfile]
      rw [nodeAt_eq hp, node_set, if_pos rfl]

end PullEnv

/-- Nothing fails, and no version bears a time stamp. -/
def PullLibrary.calm (lib : PullLibrary) (source : BlockInfo → Nat → Except SyncError Bytes)
    (versioner : Option Versioner) (mergeFuel : Nat) : PullEnv :=
  { calmEnv with
    sha256 := lib.sha256
    fromUtf8 := lib.fromUtf8
    textDiff := lib.textDiff
    clock := { calmEnv.clock with parseStamp := fun _ => none }
    blockSource := some source
    mergeFuel
    versioner }

theorem PullLibrary.stampsFit_calm {source : BlockInfo → Nat → Except SyncError Bytes}
    {versioner : Option Versioner} {mergeFuel : Nat} {d : Disk} {path : List String} :
    (lib.calm source versioner mergeFuel).StampsFit d path := ⟨fun _ _ => rfl, rfl⟩

/-- A name at the root that is not on the way to the file. -/
def FileInfo.twinName (info : FileInfo) : String :=
  if (namePath info.name).head? = some "a" then "b" else "a"

/-- A folder with another file of the same blocks. -/
def FileInfo.twinState (info : FileInfo) : FolderState where
  db := KeyedList.empty.upsert { new info.twinName with blocks := info.blocks }
  disk := empty.set [info.twinName] (.file [] (0, 0))

theorem namePath_twinName : namePath info.twinName = [info.twinName] := by
  unfold twinName
  split <;> decide

theorem head?_ne_twinName : (namePath info.name).head? ≠ some info.twinName := by
  unfold twinName
  split
  next h =>
    rw [h]
    decide
  next h => exact h

theorem nodeAt_twinState {q : List String} (hq : q ≠ []) : info.twinState.disk.nodeAt q =
    if q = [info.twinName] then some (.file [] (0, 0)) else none := nodeAt_eq hq

theorem findLocalCopySource_twinState
    {versioner : Option Versioner} {fuel : Nat} (h : info.Installs) (hblocks : info.blocks ≠ []) :
    (lib.calm source versioner fuel).findLocalCopySource info.twinState info =
      .ok (some [info.twinName]) := by
  have hname : info.twinName ≠ info.name := by
    intro heq
    refine (head?_ne_twinName : (namePath info.name).head? ≠ _) ?_
    rw [← heq, namePath_twinName]
    rfl
  have hnode : info.twinState.disk.nodeAt (namePath info.twinName) = some (.file [] (0, 0)) := by
    rw [namePath_twinName, nodeAt_twinState (cons_ne_nil _ _), if_pos rfl]
  have hentries : info.twinState.db.entries =
      [{ new info.twinName with blocks := info.blocks }] := rfl
  unfold findLocalCopySource
  rw [if_neg (by simp [hblocks, h.live])]
  simp only [calm, calmEnv, hentries]
  rw [find?_cons_of_pos, map_some]
  · exact congrArg (fun p => Except.ok (some p)) namePath_twinName
  · simp [new, isDeleted, hname, blockHashes, pathExists, isFile, hnode]

theorem fillsTemp_twinState
    {fuel : Nat} (h : info.Installs) : (lib.calm source none fuel).FillsTemp info.twinState info := by
  refine ⟨h.name, rfl, fun q hq hsome => ?_, ?_, ?_⟩
  · by_cases hnil : q = []
    · simp [hnil, isDir, nodeAt]
    · rw [nodeAt_twinState hnil] at hsome
      split at hsome
      next heq =>
        subst heq
        exact absurd (List.singleton_prefix_iff_head?_eq_some.mp
          (hq.trans (List.dropLast_prefix _))) head?_ne_twinName
      · cases hsome
  · rw [isDir, nodeAt_twinState (tempPathFor_ne_nil _)]
    by_cases htwin : tempPathFor (namePath info.name) = [info.twinName] <;> simp [htwin]
  · by_cases hblocks : info.blocks = []
    · refine .inr ⟨?_, rfl, by simp [hblocks], rfl, rfl⟩
      simp [findLocalCopySource, hblocks]
    · exact .inl ⟨[info.twinName], findLocalCopySource_twinState h hblocks, rfl⟩

/-- A record whose time does not fit makes a pull panic or gives the file a wrong date. -/
theorem timeFits_of_pulledSafely (hs : -2 ^ 63 ≤ info.modifiedS ∧ info.modifiedS < 2 ^ 63)
    (hns : -2 ^ 31 ≤ info.modifiedNs ∧ info.modifiedNs < 2 ^ 31) (hinstalls : info.Installs)
    (h : PulledSafely lib info) : info.TimeFits := by
  obtain ⟨fuel, out, hout, hresult⟩ :=
    h.returns (lib.calm (fun _ _ => .ok []) none 0) info.twinState rfl lib.stampsFit_calm
  have htarget : info.twinState.disk.node (namePath info.name) = none := by
    rw [← nodeAt_eq (namePath_ne_nil _), nodeAt_twinState (namePath_ne_nil _), if_neg]
    intro heq
    refine (head?_ne_twinName : (namePath info.name).head? ≠ _) ?_
    rw [heq]
    rfl
  have htemp : info.twinState.disk.isSymlink (tempPathFor (namePath info.name)) = false := by
    rw [isSymlink, nodeAt_twinState (tempPathFor_ne_nil _)]
    by_cases htwin : tempPathFor (namePath info.name) = [info.twinName] <;> simp [htwin]
  have hfill : (lib.calm (fun _ _ => .ok []) none fuel).FillsTemp info.twinState info :=
    fillsTemp_twinState hinstalls
  have hdownload := (pullTask_of_installs hinstalls).symm.trans hout
  obtain ⟨-, hpanic⟩ | ⟨content, t, htime, hok, hnode⟩ :=
    install_of_fillsTemp hfill rfl rfl rfl htarget htemp hdownload
  · exact absurd hpanic hresult
  · exact fits_of_systemTime hs hns htime
      (h.dated _ _ out content t rfl hinstalls hout hok rfl hnode)

/-- The progress of the first block is told in an empty folder. -/
theorem told_of_received {block : BlockInfo} {blocks : List BlockInfo} {data : Bytes}
    (hcalm : ∀ step, env.fault step = none) (hreceived : env.blockSource = some fun _ _ => .ok data)
    (hinstalls : info.Installs) (hblocks : info.blocks = block :: blocks)
    (hdata : env.sha256 data = block.hash) :
    ⟨data.length, UInt64.ofInt info.size⟩ ∈ env.pullProgress ⟨.empty, .empty⟩ info := by
  have hnone : ∀ q, q ≠ [] → nodeAt .empty q = none := fun q hq => nodeAt_eq hq
  obtain ⟨d1, h1⟩ : ∃ d1, createDirAll .empty (namePath info.name).dropLast
      env.clock.now = .ok d1 := by
    refine createDirAll_ok_iff.mpr fun q _ hsome => ?_
    by_cases hq : q = []
    · simp [hq, isDir, nodeAt]
    · rw [hnone q hq] at hsome
      cases hsome
  obtain ⟨d2, h2⟩ : ∃ d2, d1.write (tempPathFor (namePath info.name)) []
      env.clock.now = .ok d2 := by
    refine (write_temp_ok_iff h1).mpr ?_
    rw [isDir, hnone _ (tempPathFor_ne_nil _)]
  have hsource : env.findLocalCopySource ⟨.empty, .empty⟩ info = .ok none := by
    simp [findLocalCopySource, hblocks, hinstalls.live, hcalm, KeyedList.empty]
  have hprogress : env.downloadProgress ⟨.empty, .empty⟩ info =
      env.blockProgress info.size info.blocks 0 0 := by
    unfold downloadProgress
    simp only [hinstalls.name, hsource, hcalm, orFault, h1, h2]
  simp only [pullProgress, hinstalls.live, hinstalls.file, Bool.false_eq_true, if_false, hprogress,
    hblocks, blockProgress, hreceived]
  simp [hcalm, hdata]

theorem size_of_pulledSafely (hsize : -2 ^ 63 ≤ info.size ∧ info.size < 2 ^ 63)
    (hinstalls : info.Installs) (h : PulledSafely lib info) :
    0 ≤ info.size ∨ ∀ block ∈ info.blocks.head?, ∀ data, lib.sha256 data ≠ block.hash := by
  refine or_iff_not_imp_right.mpr fun hnot => ?_
  push Not at hnot
  obtain ⟨block, hblock, data, hdata⟩ := hnot
  obtain ⟨blocks, hblocks⟩ := head?_eq_some_iff.mp hblock
  have htold := h.progress (lib.calm (fun _ _ => .ok data) none 0) _ _ rfl
    (told_of_received (fun _ => rfl) rfl hinstalls hblocks hdata)
  exact (toNat_ofInt_size hsize).mp htold

/-! ### A merge that does not return -/

section merge
variable {d : Disk} {path : List String} {hash base localBytes : Bytes} {now : Mtime}

/-- A place for an archived version of a file that is not on the way to the file. -/
def archivedPath (path : List String) : List String :=
  stversionsDir ++ [fileNameOrUnknown path ++ "~" ++ path.getD 1 ""]

/-- A folder with a text, and an older version of it that its record is based on. -/
def FileInfo.editedState (info : FileInfo) (hash base localBytes : Bytes) : FolderState where
  db := KeyedList.empty.upsert
    { new info.name with baseVersion := some ⟨0, 0, 0, none, some hash⟩ }
  disk := (((empty.fill (.dir (0, 0) 4096) (namePath info.name).dropLast).fill
      (.dir (0, 0) 4096) stversionsDir).set
      (archivedPath (namePath info.name)) (.file base (100, 0))).set
      (namePath info.name) (.file localBytes (0, 0))

theorem archivedPath_not_prefix : ¬ archivedPath path <+: path := by
  rintro ⟨rest, hpath⟩
  have hsecond := congrArg (fun p : List String => (p.getD 1 "").toList.length) hpath
  simp [archivedPath, stversionsDir] at hsecond
  omega

/-- The name of a temporary file is not that of a version. -/
theorem not_startsWith_temp (name : String) :
    Text.startsWith (".syncthing." ++ name ++ ".tmp") (name ++ "~") = false := by
  rw [Bool.eq_false_iff]
  intro h
  have hpre : (name ++ "~").toList <+: (".syncthing." ++ name).toList ++ ".tmp".toList := by
    have := isPrefixOf_iff_prefix.mp h
    simpa using this
  have hpre := prefix_of_prefix_length_le hpre (prefix_append _ _) (by simp)
  have hcount := hpre.sublist.count_le '~'
  simp only [String.toList_append, count_append] at hcount
  have hnone : count '~' ".syncthing.".toList = 0 := by decide
  have hone : count '~' "~".toList = 1 := by decide
  omega

theorem fileName_tempPathFor :
    fileNameOrUnknown (tempPathFor path) = ".syncthing." ++ fileNameOrUnknown path ++ ".tmp" := by
  simp [fileNameOrUnknown, tempPathFor]

theorem archivedPath_ne_tempPathFor : archivedPath path ≠ tempPathFor path := by
  intro heq
  have hstart : Text.startsWith (fileNameOrUnknown (archivedPath path))
      (fileNameOrUnknown path ++ "~") = true := by
    simpa [archivedPath, fileNameOrUnknown] using Text.startsWith_append _ _
  rw [heq, fileName_tempPathFor, not_startsWith_temp] at hstart
  cases hstart

theorem node_editedState (q : List String) : (info.editedState hash base localBytes).disk.node q =
      if q = namePath info.name then some (.file localBytes (0, 0))
      else if q = archivedPath (namePath info.name) then some (.file base (100, 0))
      else if q <+: stversionsDir ∨ q <+: (namePath info.name).dropLast then some (.dir (0, 0) 4096)
      else none := by
  simp only [editedState, node_set]
  split
  · rfl
  · split
    · rfl
    · simp only [FileStore.fill, FileStore.empty]
      by_cases h1 : q <+: stversionsDir <;> by_cases h2 : q <+: (namePath info.name).dropLast <;>
        simp [h1, h2]

theorem node_parent_editedState {q : List String} (h : q <+: (namePath info.name).dropLast) :
    (info.editedState hash base localBytes).disk.node q = some (.dir (0, 0) 4096) := by
  have hpath : q ≠ namePath info.name := by
    rintro rfl
    exact not_prefix_dropLast (namePath_ne_nil _) h
  have harchived : q ≠ archivedPath (namePath info.name) := by
    rintro rfl
    exact archivedPath_not_prefix (h.trans (List.dropLast_prefix _))
  rw [node_editedState, if_neg hpath, if_neg harchived, if_pos (.inr h)]

theorem isDir_temp_editedState : (info.editedState hash base localBytes).disk.isDir
    (tempPathFor (namePath info.name)) = false := by
  have hpath := tempPathFor_ne (namePath_ne_nil info.name)
  have hdir : ¬ (tempPathFor (namePath info.name) <+: stversionsDir ∨
      tempPathFor (namePath info.name) <+: (namePath info.name).dropLast) := by
    rintro (h | h)
    · have hlen := length_pos_of_ne_nil (tempPathFor_ne_nil (namePath info.name))
      have hdir := congrArg fileNameOrUnknown (h.eq_of_length_le (by simpa [stversionsDir]))
      rw [fileName_tempPathFor] at hdir
      simpa [fileNameOrUnknown, stversionsDir] using congrArg (fun s => s.toList.take 3) hdir
    · exact ne_tempPathFor_of_le h rfl
  rw [isDir, nodeAt_eq (tempPathFor_ne_nil _), node_editedState, if_neg hpath,
    if_neg archivedPath_ne_tempPathFor.symm, if_neg hdir]

section prepared
variable (h : Prepared (info.editedState hash base localBytes).disk (namePath info.name) now d)
include h

/-- Making and filling the temporary file leaves the rest of such a folder. -/
theorem node_fetched_editedState {q : List String} (hq : q ≠ tempPathFor (namePath info.name)) :
    d.node q = (info.editedState hash base localBytes).disk.node q := by
  rw [h.parents q hq]
  split
  next hprefix =>
    rw [node_parent_editedState hprefix]
    rfl
  · rfl

/-- The versions of the file: the archived one, and directories. -/
theorem versionEntries_editedState {e : List String}
    (he : e ∈ versionEntries d (namePath info.name)) :
    e = archivedPath (namePath info.name) ∨ d.nodeAt e = some (.dir (0, 0) 4096) := by
  obtain ⟨hchild, hstart⟩ := mem_filter.mp he
  obtain ⟨hne, hdir, hsome⟩ := mem_children.mp hchild
  have htemp : e ≠ tempPathFor (namePath info.name) := by
    rintro rfl
    rw [fileName_tempPathFor, not_startsWith_temp] at hstart
    cases hstart
  have hpath : e ≠ namePath info.name := by
    rintro rfl
    have := (List.isPrefixOf_iff_prefix.mp hstart).length_le
    simp only [String.toList_append, length_append] at this
    simp only [String.reduceToList, length_singleton] at this
    omega
  rw [node_fetched_editedState h htemp, node_editedState, if_neg hpath] at hsome
  split at hsome
  · exact .inl ‹_›
  next harchived =>
    split at hsome
    next hprefix =>
      right
      rw [nodeAt_eq hne, node_fetched_editedState h htemp, node_editedState, if_neg hpath,
        if_neg harchived, if_pos hprefix]
    · cases hsome

theorem archivedPath_mem_versionEntries :
    archivedPath (namePath info.name) ∈ versionEntries d (namePath info.name) ∧
      d.nodeAt (archivedPath (namePath info.name)) = some (.file base (100, 0)) := by
  have hne : archivedPath (namePath info.name) ≠ [] := by simp [archivedPath]
  have hpath : archivedPath (namePath info.name) ≠ namePath info.name := by
    intro heq
    have hself : archivedPath (namePath info.name) <+: archivedPath (namePath info.name) :=
      prefix_rfl
    nth_rewrite 2 [heq] at hself
    exact archivedPath_not_prefix hself
  have hnode : d.node (archivedPath (namePath info.name)) = some (.file base (100, 0)) := by
    rw [node_fetched_editedState h archivedPath_ne_tempPathFor, node_editedState, if_neg hpath,
      if_pos rfl]
  refine ⟨mem_filter.mpr ⟨mem_children.mpr ⟨hne, ?_, ?_⟩, ?_⟩, ?_⟩
  · simp [archivedPath]
  · rw [hnode]
    rfl
  · simpa [archivedPath, fileNameOrUnknown] using Text.startsWith_append _ _
  · rw [nodeAt_eq hne, hnode]

end prepared

section archive
variable {clock : Clock} {entry : List String}
  (hentries : ∀ e ∈ versionEntries d path, e = entry ∨ d.nodeAt e = some (.dir (0, 0) 4096))
  (hnode : d.nodeAt entry = some (.file base (100, 0)))
include hentries hnode

theorem restoreByTimestamp_eq {t : Mtime} {content : Bytes}
    (h : restoreByTimestamp clock d path t = some content) : content = base := by
  obtain ⟨e, he, hcontent⟩ := bind_eq_some_iff.mp h
  rcases hentries e (mem_of_find?_eq_some he) with rfl | hdir
  · simpa [read?, hnode] using hcontent.symm
  · simp [read?, hdir] at hcontent

/-- Nothing but the version itself is within two seconds of it. -/
theorem restoreByTimestamp_archived (hparse : clock.parseStamp = fun _ => none)
    (hentry : entry ∈ versionEntries d path) :
    (100, 0) ∈ listVersionsFor clock d path ∧
      restoreByTimestamp clock d path (100, 0) = some base := by
  have htime : versionTime clock d entry = (100, 0) := by
    simp [versionTime, hparse, hnode, nodeMtime]
  constructor
  · rw [listVersionsFor, mem_insertionSort, ← htime]
    exact mem_map_of_mem hentry
  · obtain ⟨e, he⟩ : ∃ e, (versionEntries d path).find? (fun entry =>
        nanosBetween (versionTime clock d entry) (100, 0) < 2000000000) = some e := by
      refine isSome_iff_exists.mp (find?_isSome.mpr ⟨entry, hentry, ?_⟩)
      simp [htime, nanosBetween]
    have hclose := find?_some he
    rcases hentries e (mem_of_find?_eq_some he) with rfl | hdir
    · simp [restoreByTimestamp, he, read?, hnode]
    · simp [versionTime, hparse, hdir, nodeMtime, nanosBetween] at hclose

end archive

/-- A peer that answers with given blocks. -/
def answering (datas : List Bytes) (_ : BlockInfo) (index : Nat) : Except SyncError Bytes :=
  .ok (datas.getD index [])

section
variable (hcalm : ∀ step, env.fault step = none)
include hcalm

theorem recoverBaseContent_archived {entry : List String} {keep : Nat} {b : FileInfoBase}
    (hparse : env.clock.parseStamp = fun _ => none)
    (hentries : ∀ e ∈ versionEntries d path, e = entry ∨ d.nodeAt e = some (.dir (0, 0) 4096))
    (hentry : entry ∈ versionEntries d path) (hnode : d.nodeAt entry = some (.file base (100, 0)))
    (hhash : b.contentHash = some (env.sha256 base)) :
    env.recoverBaseContent (.simple keep) d path b = env.fromUtf8 base := by
  obtain ⟨hmem, hrestore⟩ := restoreByTimestamp_archived hentries hnode hparse hentry
  obtain ⟨i, hi⟩ := mem_iff_getElem?.mp hmem
  unfold recoverBaseContent
  simp only [hhash, hcalm, bind_eq_bind, bind_some, isSome_none,
    Bool.false_eq_true, if_false, getVersions]
  obtain ⟨content, hfound⟩ : ∃ content, (((listVersionsFor env.clock d path).zipIdx.filterMap
      fun x => restoreByTimestamp env.clock d path x.1).find? fun content =>
        env.sha256 content = env.sha256 base) = some content := by
    refine isSome_iff_exists.mp (find?_isSome.mpr ⟨base, ?_, by simp⟩)
    exact mem_filterMap.mpr ⟨_, mk_mem_zipIdx_iff_getElem?.mpr hi, hrestore⟩
  obtain ⟨⟨t, k⟩, -, ht⟩ := mem_filterMap.mp (mem_of_find?_eq_some hfound)
  obtain rfl := restoreByTimestamp_eq hentries hnode ht
  rw [hfound, bind_some]

theorem fetchBlocks_answering {name : String} {blocks : List BlockInfo} {datas before : List Bytes}
    {written : Bytes} (hsource : env.blockSource = some (answering (before ++ datas)))
    (h : List.Forall₂ (fun block data => env.sha256 data = block.hash) blocks datas) :
    env.fetchBlocks name blocks before.length written = (.ok (), written ++ datas.flatten) := by
  induction h generalizing before written with
  | nil => simp [fetchBlocks]
  | @cons block data blocks datas hhash _ ih =>
    have hnext := @ih (before ++ [data]) (written ++ data) (by simpa using hsource)
    rw [length_append, length_singleton] at hnext
    simp only [fetchBlocks, hsource, answering, hcalm]
    simp [hhash, hnext]

/-- With nothing but the record of the file itself, there is nothing to copy from. -/
theorem findLocalCopySource_editedState :
    env.findLocalCopySource (info.editedState hash base localBytes) info = .ok none := by
  have hentries : (info.editedState hash base localBytes).db.entries =
      [{ new info.name with baseVersion := some ⟨0, 0, 0, none, some hash⟩ }] := rfl
  unfold findLocalCopySource
  split
  · rfl
  · simp [hcalm, hentries, new]

/-- A download that nothing stops gets as far as the merge. -/
theorem downloadBlocks_of_calm {d1 d2 : Disk} {written : Bytes}
    (h1 : st.disk.createDirAll (namePath info.name).dropLast env.clock.now = .ok d1)
    (h2 : d1.write (tempPathFor (namePath info.name)) [] env.clock.now = .ok d2)
    (hfetch : env.fetchBlocks info.name info.blocks 0 [] = (.ok (), written)) :
    env.downloadBlocks st info = env.finishDownload ⟨st.db,
      d2.overwrite (tempPathFor (namePath info.name)) written env.clock.now⟩ info := by
  unfold downloadBlocks
  simp only [hcalm, orFault, h1, h2, hfetch]

theorem mergeTexts_editedState {baseText localText remote : String} {keep : Nat}
    {written : Bytes} (hparse : env.clock.parseStamp = fun _ => none)
    (hkeep : env.versioner = some (.simple keep))
    (htext : isMergeableText info.name = true) (hbase : env.fromUtf8 base = some baseText)
    (hlocal : env.fromUtf8 localBytes = some localText)
    (hremote : env.fromUtf8 written = some remote)
    (hprepared : Prepared (info.editedState (env.sha256 base) base localBytes).disk
      (namePath info.name) now d)
    (hwritten : d.read? (tempPathFor (namePath info.name)) = some written) :
    env.mergeTexts ⟨(info.editedState (env.sha256 base) base localBytes).db, d⟩ info =
      some (baseText, localText, remote) := by
  have hp := namePath_ne_nil info.name
  have hnode : d.nodeAt (namePath info.name) = some (.file localBytes (0, 0)) := by
    rw [nodeAt_eq hp, node_fetched_editedState hprepared (tempPathFor_ne hp).symm,
      node_editedState, if_pos rfl]
  obtain ⟨hentry, harchived⟩ := archivedPath_mem_versionEntries hprepared
  refine mergeTexts_eq_some_iff.mpr ⟨?_, hcalm _, ?_, htext, hcalm _, hcalm _, ?_, ?_⟩
  · simp [pathExists, hnode]
  · have hrecord : (info.editedState (env.sha256 base) base localBytes).db.find? info.name = some
        { new info.name with
          baseVersion := some ⟨0, 0, 0, none, some (env.sha256 base)⟩ } := by
      simp [editedState, new]
    refine ⟨_, hrecord, _, rfl, _, hkeep, ?_⟩
    rw [← hbase]
    exact recoverBaseContent_archived hcalm hparse
      (fun e he => versionEntries_editedState hprepared he) hentry harchived rfl
  · simp [read?, hnode, hlocal]
  · rw [hwritten, bind_some, hremote]

/-- The download of a text that has been edited here waits for the merge. -/
theorem downloadFile_editedState {baseText localText remote : String} {keep : Nat}
    {datas : List Bytes} (hparse : env.clock.parseStamp = fun _ => none)
    (hkeep : env.versioner = some (.simple keep))
    (hsource : env.blockSource = some (answering datas)) (hinstalls : info.Installs)
    (htext : isMergeableText info.name = true) (hbase : env.fromUtf8 base = some baseText)
    (hlocal : env.fromUtf8 localBytes = some localText)
    (hremote : env.fromUtf8 datas.flatten = some remote)
    (hdatas : List.Forall₂ (fun block data => env.sha256 data = block.hash) info.blocks datas)
    (hmerge : threeWayMerge env.textDiff env.mergeFuel baseText localText remote = none) :
    env.downloadFile (info.editedState (env.sha256 base) base localBytes) info = none := by
  obtain ⟨d1, h1⟩ : ∃ d1, (info.editedState (env.sha256 base) base localBytes).disk.createDirAll
      (namePath info.name).dropLast env.clock.now = .ok d1 := by
    refine createDirAll_ok_iff.mpr fun q hq _ => ?_
    by_cases hnil : q = []
    · simp [hnil, isDir, nodeAt]
    · rw [isDir, nodeAt_eq hnil, node_parent_editedState hq]
  obtain ⟨d2, h2⟩ := (write_temp_ok_iff h1).mpr isDir_temp_editedState
  have hfetch := @fetchBlocks_answering _ hcalm info.name _ datas [] [] hsource hdatas
  have htexts := mergeTexts_editedState hcalm hparse hkeep htext hbase hlocal hremote
    ((Fetched.of_write h1 h2).overwrite datas.flatten).toPrepared
    (read?_overwrite d2 datas.flatten env.clock.now (tempPathFor_ne_nil _))
  unfold downloadFile
  simp only [hinstalls.name, findLocalCopySource_editedState hcalm]
  rw [downloadBlocks_of_calm hcalm h1 h2 hfetch, finishDownload]
  simp only [nil_append, htexts, hmerge]
  rfl

end

theorem merge_of_pulledSafely (hinstalls : info.Installs) (h : PulledSafely lib info)
    (htext : isMergeableText info.name = true) {baseText localText remote : String}
    {datas : List Bytes} (hbase : lib.IsText baseText) (hlocal : lib.IsText localText)
    (hremote : lib.fromUtf8 datas.flatten = some remote)
    (hdatas : List.Forall₂ (fun block data => lib.sha256 data = block.hash) info.blocks datas) :
    ∃ fuel, (threeWayMerge lib.textDiff fuel baseText localText remote).isSome := by
  obtain ⟨base, hbase⟩ := hbase
  obtain ⟨localBytes, hlocal⟩ := hlocal
  obtain ⟨fuel, out, hout, -⟩ := h.returns (lib.calm (answering datas) (some (.simple 5)) 0)
    (info.editedState (lib.sha256 base) base localBytes) rfl lib.stampsFit_calm
  refine ⟨fuel, isSome_iff_ne_none.mpr fun hmerge => ?_⟩
  have hnone : (lib.calm (answering datas) (some (.simple 5)) fuel).pullTask
      (info.editedState (lib.sha256 base) base localBytes) info = none :=
    (pullTask_of_installs hinstalls).trans
      (downloadFile_editedState (fun _ => rfl) rfl rfl rfl hinstalls htext hbase hlocal hremote
        hdatas hmerge)
  cases hnone.symm.trans hout

end merge

/-! ### When a record is harmless -/

theorem harmless_of_pulledSafely (hsize : -2 ^ 63 ≤ info.size ∧ info.size < 2 ^ 63)
    (hs : -2 ^ 63 ≤ info.modifiedS ∧ info.modifiedS < 2 ^ 63)
    (hns : -2 ^ 31 ≤ info.modifiedNs ∧ info.modifiedNs < 2 ^ 31) (hinstalls : info.Installs)
    (h : PulledSafely lib info) : info.Harmless lib where
  time := timeFits_of_pulledSafely hs hns hinstalls h
  size := size_of_pulledSafely hsize hinstalls h
  merge htext _ _ _ _ hbase hlocal hremote hdatas :=
    merge_of_pulledSafely hinstalls h htext hbase hlocal hremote hdatas

theorem pulledSafely_of_harmless (hsize : -2 ^ 63 ≤ info.size ∧ info.size < 2 ^ 63)
    (hs : info.modifiedS < 2 ^ 63) (hns : info.modifiedNs < 2 ^ 31)
    (h : info.Installs → info.Harmless lib) : PulledSafely lib info where
  processed := fun _ _ => ends_processFile_unchanged
  returns := by
    rintro env st rfl -
    exact pullTask_returns hs hns h
  dated := by
    rintro env st out content t rfl hinstalls hout hok hset hnode
    exact instant_of_pulled hs hns hinstalls (h hinstalls).time hout hok hset hnode
  progress := by
    rintro env st told rfl htold
    obtain ⟨hinstalls, htold⟩ := mem_pullProgress htold
    obtain ⟨htotal, block, hblock, data, hdata⟩ := mem_blockProgress htold
    rw [htotal, toNat_ofInt_size hsize]
    refine (h hinstalls).size.resolve_right fun hnever => ?_
    exact hnever block hblock data hdata
  compared := fun _ _ _ _ hmeta hlen hlive hfile hpath hneeded =>
    isNeeded_iff hsize hmeta hlen hlive hfile hpath hneeded

theorem toNat_toUInt64_sequence (sequence : Int64) :
    ((sequence.toUInt64.toNat : Int) = sequence.toInt) ↔ 0 ≤ sequence := by
  have hnat : sequence.toUInt64.toNat = sequence.toBitVec.toNat := rfl
  have hint : sequence.toInt = sequence.toBitVec.toInt := rfl
  rw [Int64.le_iff_toInt_le, hnat, hint, BitVec.toInt_eq_toNat_cond]
  have hlt := sequence.toBitVec.isLt
  have hzero : (0 : Int64).toInt = 0 := rfl
  rw [hzero]
  split <;> omega

/-- A record of an empty file, as it comes from the wire. -/
def wireRecord (size modifiedS modifiedNs : Int) (sequence : Int64) : Bep.WireFileInfo where
  name := "x"
  type := 0
  size := size
  permissions := 0
  modifiedS := modifiedS
  deleted := false
  invalid := false
  noPermissions := false
  version := none
  sequence := sequence
  modifiedNs := modifiedNs
  modifiedBy := 0
  blockSize := 0
  blocks := []
  symlinkTarget := []
  blocksHash := []
  encrypted := []
  previousBlocksHash := []

/-- A clock that reads one stamp, of the year 1960. -/
def sixtiesClock : Clock := { calmEnv.clock with
  parseStamp := fun s => if s = "19600101-000000" then some (-315619200) else none }

end Syncthing
