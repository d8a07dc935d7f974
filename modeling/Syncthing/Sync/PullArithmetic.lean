import Syncthing.Net.Conversions
import Syncthing.Sync.FailedDownloads
import Syncthing.Sync.IndexHandler

/-! A record of a peer brings any 64-bit size, time and sequence number, and any 32-bit nanoseconds.
They are cast to unsigned integers where the puller dates the file, tells its progress and compares
sizes, and where the record is decoded. -/
namespace Syncthing

open PullEnv Program Option UInt64

/-- `SyncEvent::DownloadProgress`. What has been received fits into a `u64`. -/
structure DownloadProgress where
  bytesDone : Nat
  bytesTotal : UInt64
  deriving DecidableEq

namespace PullEnv

variable (env : PullEnv)

/-- The progress that is told while the blocks are received. -/
def blockProgress (size : Int) : List BlockInfo → Nat → Nat → List DownloadProgress
  | [], _, _ => []
  | block :: blocks, index, bytesDownloaded =>
    match env.blockSource with
    | none => []
    | some source =>
      match source block index with
      | .error _ => []
      | .ok data =>
        if env.sha256 data ≠ block.hash then []
        else match env.fault (.writeBlock index) with
          | some _ => []
          | none =>
            ⟨bytesDownloaded + data.length, ofInt size⟩ ::
              blockProgress size blocks (index + 1) (bytesDownloaded + data.length)

variable (st : FolderState) (info : FileInfo)

/-- The progress of a download, told on its network path only. -/
def downloadProgress : List DownloadProgress :=
  let path := namePath info.name
  match validateRemoteName info.name, env.findLocalCopySource st info with
  | .ok _, .ok none =>
    match orFault (env.fault .createParent) (st.disk.createDirAll path.dropLast env.clock.now) with
    | .error _ => []
    | .ok disk =>
      match orFault (env.fault .createTemp) (disk.write (tempPathFor path) [] env.clock.now) with
      | .error _ => []
      | .ok _ => env.blockProgress info.size info.blocks 0 0
  | _, _ => []

def pullProgress : List DownloadProgress :=
  if info.isDeleted then []
  else match info.fileType with
    | .file => env.downloadProgress st info
    | .directory | .symlink => []

end PullEnv

/-- A time in nanoseconds. -/
def Mtime.instant (t : Mtime) : Int := t.1 * 10 ^ 9 + t.2

/-- A record that is pulled by downloading a file. -/
structure FileInfo.Installs (info : FileInfo) : Prop where
  live : info.isDeleted = false
  file : info.fileType = .file
  name : validateRemoteName info.name = .ok ()

/-- The functions that a pull takes from elsewhere. -/
structure PullLibrary where
  sha256 : Bytes → Bytes
  fromUtf8 : Bytes → Option String
  textDiff : String → String → List DiffOp

def PullEnv.library (env : PullEnv) : PullLibrary := ⟨env.sha256, env.fromUtf8, env.textDiff⟩

/-- No version of the file, nor the one that a pull makes, is stamped with a time before the epoch.
Listing the versions of the file panics on such a one, whatever record is pulled. -/
structure PullEnv.StampsFit (env : PullEnv) (d : Disk) (path : List String) : Prop where
  archived : ∀ entry ∈ versionEntries d path,
    stampPanics env.clock (fileNameOrUnknown entry) = false
  current : stampPanics env.clock
    (fileNameOrUnknown (versionPath path (env.clock.formatStamp env.clock.now.1))) = false

/-- Whatever the state of the folder, the record is processed and pulled without a panic, and every
number that is made of its own is the one it stands for. -/
structure PulledSafely (lib : PullLibrary) (info : FileInfo) : Prop where
  /-- The record is stored and queued as it came. -/
  processed : ∀ (env : IndexEnv) s, Ends (env.processFile info)
    (fun needed t => (∀ f ∈ needed, f = info) ∧
      (t.db.find? info.name = s.db.find? info.name ∨ t.db.find? info.name = some info))
    (fun t => t.db = s.db) s
  /-- It takes no more than a certain number of iterations of a merge. -/
  returns : ∀ (env : PullEnv) st, env.library = lib →
    env.StampsFit st.disk (namePath info.name) → ∃ fuel out,
    PullEnv.pullTask { env with mergeFuel := fuel } st info = some out ∧ out.result ≠ .panicked
  dated : ∀ (env : PullEnv) st out content t, env.library = lib → info.Installs →
    env.pullTask st info = some out → out.result = .ok → env.fault .setMtime = none →
    out.state.disk.nodeAt (namePath info.name) = some (.file content t) →
    t.instant = Mtime.instant (info.modifiedS, info.modifiedNs)
  progress : ∀ (env : PullEnv) st told, env.library = lib → told ∈ env.pullProgress st info →
    (told.bytesTotal.toNat : Int) = info.size
  /-- No file is longer than an `i64` says. -/
  compared : ∀ (env : PullEnv) (d : Disk) len needed, d.metadataLen (namePath info.name) = .ok len →
    len < 2 ^ 63 → info.isDeleted = false → info.fileType ≠ .directory →
    d.pathExists (namePath info.name) = true → env.isNeeded d info = .ok needed →
    (needed = true ↔ (len : Int) ≠ info.size)

/-- The integers of a wire record are of their types. -/
structure Bep.WireFileInfo.InRange (f : Bep.WireFileInfo) : Prop where
  size : -2 ^ 63 ≤ f.size ∧ f.size < 2 ^ 63
  modifiedS : -2 ^ 63 ≤ f.modifiedS ∧ f.modifiedS < 2 ^ 63
  modifiedNs : -2 ^ 31 ≤ f.modifiedNs ∧ f.modifiedNs < 2 ^ 31

/-- The time of a record is one that the date arithmetic gets right. -/
structure FileInfo.TimeFits (info : FileInfo) : Prop where
  secs : 0 ≤ info.modifiedS
  nanos : 0 ≤ info.modifiedNs
  sum : info.modifiedS + info.modifiedNs / 10 ^ 9 < 2 ^ 63

/-- The bytes are the text of some file. -/
def PullLibrary.IsText (lib : PullLibrary) (text : String) : Prop :=
  ∃ bytes, lib.fromUtf8 bytes = some text

/-- A record whose download goes well with every number it has. -/
structure FileInfo.Harmless (lib : PullLibrary) (info : FileInfo) : Prop where
  time : info.TimeFits
  /-- A negative size does no harm if the first block can never be received. -/
  size : 0 ≤ info.size ∨ ∀ block ∈ info.blocks.head?, ∀ data, lib.sha256 data ≠ block.hash
  merge : isMergeableText info.name = true → ∀ base localText remote datas, lib.IsText base →
    lib.IsText localText → lib.fromUtf8 datas.flatten = some remote →
    List.Forall₂ (fun block data => lib.sha256 data = block.hash) info.blocks datas →
    ∃ fuel, (threeWayMerge lib.textDiff fuel base localText remote).isSome

variable {env : PullEnv} {st st' : FolderState} {info recorded : FileInfo} {out : Downloaded}
  {t : Mtime}

theorem ends_processFile_unchanged {env : IndexEnv} {s : FolderState} : Ends (env.processFile info)
      (fun needed t => (∀ f ∈ needed, f = info) ∧
        (t.db.find? info.name = s.db.find? info.name ∨ t.db.find? info.name = some info))
      (fun t => t.db = s.db) s := by
  refine IndexEnv.ends_processFile.imp (fun needed t h => ?_) fun t h => h.1
  have hneeded : ∀ f ∈ pulledUnlessDeleted info, f = info :=
    fun f hf => (name_of_pulledUnlessDeleted hf).1
  have hstored : (s.db.upsert info).find? info.name = some info := by simp
  cases h with
  | rejected | unknownDeletion | ignored | localWins => exact ⟨by simp, .inl rfl⟩
  | new | renamed => exact ⟨by simp, .inr hstored⟩
  | updated | mergedLater => exact ⟨hneeded, .inr hstored⟩
  | sameVersion => exact ⟨hneeded, .inl rfl⟩

/-! ### The date -/

theorem systemTime_of_fits (h : info.TimeFits) (hs : info.modifiedS < 2 ^ 63)
    (hns : info.modifiedNs < 2 ^ 31) : systemTime info =
      some (info.modifiedS + info.modifiedNs / 10 ^ 9, info.modifiedNs % 10 ^ 9) := by
  have hsecs : info.modifiedS % 2 ^ 64 = info.modifiedS := Int.emod_eq_of_lt h.secs (by omega)
  have hnanos : info.modifiedNs % 2 ^ 64 = info.modifiedNs := Int.emod_eq_of_lt h.nanos (by omega)
  simp only [systemTime, hsecs, hnanos]
  rw [if_pos h.sum]

/-- The date is computed right only if it fits. -/
theorem fits_of_systemTime (hs : -2 ^ 63 ≤ info.modifiedS ∧ info.modifiedS < 2 ^ 63)
    (hns : -2 ^ 31 ≤ info.modifiedNs ∧ info.modifiedNs < 2 ^ 31) (h : systemTime info = some t)
    (hright : t.instant = Mtime.instant (info.modifiedS, info.modifiedNs)) : info.TimeFits := by
  unfold systemTime at h
  simp only at h
  split at h
  next hlt =>
    cases h
    simp only [Mtime.instant] at hright
    refine ⟨?_, ?_, ?_⟩ <;> omega
  · cases h

/-! ### How a download ends -/

namespace PullEnv

theorem systemTime_of_panicked (h : env.install st info recorded = (.panicked, st')) :
    systemTime info = none := by
  unfold install at h
  simp only at h
  split at h
  · cases h
  · split at h
    · assumption
    · cases h

variable {content : Bytes} {d : Disk}

theorem nodeAt_setMtime_file {p : List String} {modified : Mtime}
    (hp : p ≠ []) (h : (d.setMtime p modified).nodeAt p = some (.file content t)) :
    t = modified := by
  unfold Disk.setMtime at h
  split at h
  · rw [Disk.nodeAt_eq hp, FileStore.node_set, if_pos rfl] at h
    cases h
    rfl
  next hnot => exact absurd h (hnot content t)

theorem systemTime_of_dated
    (h : env.install st info recorded = (.ok, st')) (hset : env.fault .setMtime = none)
    (hnode : st'.disk.nodeAt (namePath info.name) = some (.file content t)) :
    systemTime info = some t := by
  unfold install at h
  simp only at h
  split at h
  · cases h
  · split at h
    · cases h
    next modified htime =>
      cases h
      simp only [hset, isSome_none, Bool.false_eq_true, if_false] at hnode
      rw [htime, nodeAt_setMtime_file (namePath_ne_nil _) hnode]

/-! ### That it ends -/

theorem mergeTexts_eq_some_iff {base localText remote : String} :
    env.mergeTexts st info = some (base, localText, remote) ↔
      st.disk.pathExists (namePath info.name) = true ∧ env.fault .dbGetFile = none ∧
      (∃ record, st.db.find? info.name = some record ∧ ∃ b, record.baseVersion = some b ∧
        ∃ v, env.versioner = some v ∧
          env.recoverBaseContent v st.disk (namePath info.name) b = some base) ∧
      isMergeableText info.name = true ∧ env.fault .readLocal = none ∧
      env.fault .readTemp = none ∧
      (st.disk.read? (namePath info.name)).bind env.fromUtf8 = some localText ∧
      (st.disk.read? (tempPathFor (namePath info.name))).bind env.fromUtf8 = some remote := by
  unfold mergeTexts
  simp only [bind_eq_bind, bind_eq_some_iff, guard_eq_some', pure_def,
    some.injEq, Prod.mk.injEq, Bool.and_eq_true, isNone_iff_eq_none, exists_const]
  constructor
  · rintro ⟨hpath, hdb, record, hrecord, b, hb, htext, ⟨hlocal, htemp⟩, _, hl, _, hr, v, hv, _, hbase,
      rfl, rfl, rfl⟩
    exact ⟨hpath, hdb, ⟨record, hrecord, b, hb, v, hv, hbase⟩, htext, hlocal, htemp, hl, hr⟩
  · rintro ⟨hpath, hdb, ⟨record, hrecord, b, hb, v, hv, hbase⟩, htext, hlocal, htemp, hl, hr⟩
    exact ⟨hpath, hdb, record, hrecord, b, hb, htext, ⟨hlocal, htemp⟩, _, hl, _, hr, v, hv, _, hbase,
      rfl, rfl, rfl⟩

theorem isText_of_recoverBaseContent {v : Versioner} {path : List String}
    {b : FileInfoBase} {text : String} (h : env.recoverBaseContent v d path b = some text) :
    env.library.IsText text := by
  unfold recoverBaseContent at h
  simp only [bind_eq_bind, bind_eq_some_iff] at h
  obtain ⟨-, -, content, -, htext⟩ := h
  exact ⟨content, htext⟩

/-- The merge that may follow on a download returns. -/
def MergeReturns (env : PullEnv) (st : FolderState) (info : FileInfo) : Prop :=
  ∀ base localText remote, env.mergeTexts st info = some (base, localText, remote) →
    (threeWayMerge env.textDiff env.mergeFuel base localText remote).isSome

/-- The state with all the blocks in the temporary file. -/
def withBlocks (env : PullEnv) (st : FolderState) (info : FileInfo) (d : Disk) : FolderState :=
  ⟨st.db, d.overwrite (tempPathFor (namePath info.name))
    (env.fetchBlocks info.name info.blocks 0 []).2 env.clock.now⟩

/-- The blocks do not depend on how long a merge may take. -/
theorem fetchBlocks_withFuel (fuel : Nat) (name : String) (blocks : List BlockInfo) (index : Nat)
    (written : Bytes) : fetchBlocks { env with mergeFuel := fuel } name blocks index written =
      env.fetchBlocks name blocks index written := by
  induction blocks generalizing index written with
  | nil => rfl
  | cons block blocks ih =>
    unfold fetchBlocks
    simp only [ih]

/-- Enough iterations for the merge that the download of a harmless record comes to. -/
theorem exists_fuel_withBlocks (h : info.Harmless env.library) (st : FolderState) (d : Disk)
    (hok : (env.fetchBlocks info.name info.blocks 0 []).1 = .ok ()) :
    ∃ fuel, MergeReturns { env with mergeFuel := fuel } (env.withBlocks st info d) info := by
  cases htexts : env.mergeTexts (env.withBlocks st info d) info with
  | none =>
    refine ⟨0, fun base localText remote heq => ?_⟩
    cases htexts.symm.trans heq
  | some texts =>
    obtain ⟨base, localText, remote⟩ := texts
    obtain ⟨-, -, ⟨_, -, _, -, _, -, hbase⟩, htext, -, -, hlocal, hremote⟩ :=
      mergeTexts_eq_some_iff.mp htexts
    obtain ⟨localBytes, -, hlocal⟩ := bind_eq_some_iff.mp hlocal
    obtain ⟨datas, hwritten, hhash, -⟩ := fetchBlocks_ok (Prod.ext hok rfl)
    have hremote : env.fromUtf8 datas.flatten = some remote := by
      rw [withBlocks, Disk.read?_overwrite _ _ _ (tempPathFor_ne_nil _)] at hremote
      simpa [hwritten] using hremote
    obtain ⟨fuel, hfuel⟩ := h.merge htext base localText remote datas
      (isText_of_recoverBaseContent hbase) ⟨localBytes, hlocal⟩ hremote hhash
    refine ⟨fuel, fun base' localText' remote' heq => ?_⟩
    cases htexts.symm.trans heq
    exact hfuel

theorem exists_fuel (h : info.Harmless env.library) (st : FolderState) : ∃ fuel, ∀ d1 d2,
    st.disk.createDirAll (namePath info.name).dropLast env.clock.now = .ok d1 →
    d1.write (tempPathFor (namePath info.name)) [] env.clock.now = .ok d2 →
    (env.fetchBlocks info.name info.blocks 0 []).1 = .ok () →
    MergeReturns { env with mergeFuel := fuel } (env.withBlocks st info d2) info := by
  by_cases hreached : ∃ d1 d2,
      st.disk.createDirAll (namePath info.name).dropLast env.clock.now = .ok d1 ∧
      d1.write (tempPathFor (namePath info.name)) [] env.clock.now = .ok d2 ∧
      (env.fetchBlocks info.name info.blocks 0 []).1 = .ok ()
  · obtain ⟨d1, d2, h1, h2, hok⟩ := hreached
    obtain ⟨fuel, hfuel⟩ := exists_fuel_withBlocks h st d2 hok
    refine ⟨fuel, fun d1' d2' h1' h2' _ => ?_⟩
    cases h1.symm.trans h1'
    cases h2.symm.trans h2'
    exact hfuel
  · exact ⟨0, fun d1 d2 h1 h2 hok => absurd ⟨d1, d2, h1, h2, hok⟩ hreached⟩

theorem finishDownload_returns (hmerge : env.MergeReturns st info) :
    ∃ out, env.finishDownload st info = some out := by
  unfold finishDownload
  simp only
  split
  · exact ⟨_, rfl⟩
  next base localText remote htexts =>
    obtain ⟨merged, hmerged⟩ := isSome_iff_exists.mp (hmerge base localText remote htexts)
    rw [hmerged]
    exact ⟨_, rfl⟩

theorem downloadFile_returns (hmerge : ∀ d1 d2,
    st.disk.createDirAll (namePath info.name).dropLast env.clock.now = .ok d1 →
    d1.write (tempPathFor (namePath info.name)) [] env.clock.now = .ok d2 →
    (env.fetchBlocks info.name info.blocks 0 []).1 = .ok () →
    env.MergeReturns (env.withBlocks st info d2) info) :
    ∃ out, env.downloadFile st info = some out := by
  unfold downloadFile
  split
  · exact ⟨_, rfl⟩
  · split
    · exact ⟨_, rfl⟩
    · exact ⟨_, rfl⟩
    · unfold downloadBlocks
      simp only
      split
      · exact ⟨_, rfl⟩
      next d1 h1 =>
        split
        · exact ⟨_, rfl⟩
        next d2 h2 =>
          split
          · exact ⟨_, rfl⟩
          next hok =>
            split
            · exact ⟨_, rfl⟩
            · exact ⟨_, rfl⟩
            · refine finishDownload_returns (hmerge d1 d2 ?_ ?_ hok)
              · exact (orFault_eq_ok.mp h1).2
              · exact (orFault_eq_ok.mp h2).2

/-- What is not downloaded does not panic. -/
theorem pullTask_of_not_installs (h : ¬ info.Installs) :
    ∃ out, env.pullTask st info = some out ∧ out.result ≠ .panicked := by
  unfold pullTask
  split
  · exact ⟨_, rfl, deleteFile_spec.1⟩
  next hlive =>
    split
    · exact ⟨_, rfl, createDirectory_spec.1⟩
    next hfile =>
      have hname : validateRemoteName info.name ≠ .ok () :=
        fun hname => h ⟨by simpa using hlive, hfile, hname⟩
      unfold downloadFile
      split
      · exact ⟨_, rfl, by simp⟩
      next hok => exact absurd hok hname
    · exact ⟨_, rfl, by simp⟩

theorem pullTask_of_installs (h : info.Installs) :
    env.pullTask st info = env.downloadFile st info := by
  simp [pullTask, h.live, h.file]

theorem downloadFile_ne_panicked (h : env.downloadFile st info = some out)
    (htime : systemTime info ≠ none) : out.result ≠ .panicked := by
  intro hpanic
  obtain ⟨⟨e, he⟩, -⟩ | ⟨st', recorded, hinstall, -⟩ := downloadFile_installs h
  · rw [hpanic] at he
    cases he
  · rw [hpanic] at hinstall
    exact htime (systemTime_of_panicked hinstall)

/-- The pull of a record returns if it is not installed, or harmless. -/
theorem pullTask_returns (hs : info.modifiedS < 2 ^ 63) (hns : info.modifiedNs < 2 ^ 31)
    (h : info.Installs → info.Harmless env.library) : ∃ fuel out,
    pullTask { env with mergeFuel := fuel } st info = some out ∧ out.result ≠ .panicked := by
  by_cases hinstalls : info.Installs
  · obtain ⟨fuel, hfuel⟩ := exists_fuel (h hinstalls) st
    obtain ⟨out, hout⟩ : ∃ out, downloadFile { env with mergeFuel := fuel } st info = some out :=
      downloadFile_returns fun d1 d2 h1 h2 hok => by
        rw [fetchBlocks_withFuel] at hok
        simp only [withBlocks, fetchBlocks_withFuel]
        exact hfuel d1 d2 h1 h2 hok
    refine ⟨fuel, out, (pullTask_of_installs hinstalls).trans hout, ?_⟩
    refine downloadFile_ne_panicked hout ?_
    rw [systemTime_of_fits (h hinstalls).time hs hns]
    simp
  · exact ⟨0, pullTask_of_not_installs hinstalls⟩

theorem instant_of_pulled (hs : info.modifiedS < 2 ^ 63)
    (hns : info.modifiedNs < 2 ^ 31) (hinstalls : info.Installs) (hfits : info.TimeFits)
    (h : env.pullTask st info = some out) (hok : out.result = .ok)
    (hset : env.fault .setMtime = none)
    (hnode : out.state.disk.nodeAt (namePath info.name) = some (.file content t)) :
    t.instant = Mtime.instant (info.modifiedS, info.modifiedNs) := by
  rw [pullTask_of_installs hinstalls] at h
  obtain ⟨⟨e, he⟩, -⟩ | ⟨st', recorded, hinstall, -⟩ := downloadFile_installs h
  · rw [hok] at he
    cases he
  · rw [hok] at hinstall
    have htime := systemTime_of_dated hinstall hset hnode
    rw [systemTime_of_fits hfits hs hns] at htime
    cases htime
    simp only [Mtime.instant]
    omega

/-! ### Its progress and the comparison of sizes -/

theorem toNat_ofInt_size {size : Int} (h : -2 ^ 63 ≤ size ∧ size < 2 ^ 63) :
    ((ofInt size).toNat : Int) = size ↔ 0 ≤ size := by
  have hwrap : ((ofInt size).toNat : Int) = size % 2 ^ 64 := by
    simp [ofInt, toNat_ofNat']
    omega
  rw [hwrap]
  omega

variable {told : DownloadProgress}

theorem mem_blockProgress {size : Int} {blocks : List BlockInfo} {index bytes : Nat}
    (h : told ∈ env.blockProgress size blocks index bytes) : told.bytesTotal = ofInt size ∧
      ∃ block ∈ blocks.head?, ∃ data, env.sha256 data = block.hash := by
  induction blocks generalizing index bytes with
  | nil => cases h
  | cons block blocks ih =>
    unfold blockProgress at h
    split at h
    · cases h
    · split at h
      · cases h
      next data hdata =>
        split at h
        · cases h
        next hhash =>
          split at h
          · cases h
          · refine ⟨?_, block, rfl, data, not_not.mp hhash⟩
            rcases List.mem_cons.mp h with rfl | h
            · rfl
            · exact (ih h).1

theorem mem_pullProgress (h : told ∈ env.pullProgress st info) :
    info.Installs ∧ told ∈ env.blockProgress info.size info.blocks 0 0 := by
  unfold pullProgress at h
  split at h
  · cases h
  next hlive =>
    split at h
    next hfile =>
      unfold downloadProgress at h
      simp only at h
      split at h
      next hname _ =>
        refine ⟨⟨by simpa using hlive, hfile, hname⟩, ?_⟩
        split at h
        · cases h
        · split at h
          · cases h
          · exact h
      · cases h
    · cases h
    · cases h

theorem isNeeded_iff {len : Nat} {needed : Bool}
    (hsize : -2 ^ 63 ≤ info.size ∧ info.size < 2 ^ 63)
    (hmeta : d.metadataLen (namePath info.name) = .ok len) (hlen : len < 2 ^ 63)
    (hlive : info.isDeleted = false) (hfile : info.fileType ≠ .directory)
    (hpath : d.pathExists (namePath info.name) = true) (h : env.isNeeded d info = .ok needed) :
    needed = true ↔ (len : Int) ≠ info.size := by
  unfold isNeeded at h
  simp only [hlive, hpath, hfile, Bool.false_eq_true, Bool.not_true, if_false, hmeta] at h
  split at h
  · cases h
  next len' hlen' =>
    obtain rfl := Except.ok.inj (orFault_eq_ok.mp hlen').2
    cases h
    simp only [decide_eq_true_eq]
    omega

end PullEnv
end Syncthing
