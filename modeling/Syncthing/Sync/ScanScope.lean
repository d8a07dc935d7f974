import Syncthing.Sync.WatcherScans

/-! `POST /rest/db/scan` gives its `sub`, if it is not empty, to the scanner as it is. The disk here
is that of the whole machine: what is at each absolute path when no link is followed. -/
namespace Syncthing

open Program ScanEnv

/-- `Path::join`: an absolute path replaces what it is joined to. -/
def pathJoin (base path : String) : String :=
  if Text.startsWith path "/" then path else pushPath base path

namespace Disk

/-- Follows the components of a path from a directory. Behind a link, `follow` goes on. -/
def walkPath (w : Disk) (follow : List String → List String → Option (List String)) :
    List String → List String → Option (List String)
  | dir, [] => some dir
  | dir, component :: rest =>
    if component = "" || component = "." then walkPath w follow dir rest
    else if component = ".." then walkPath w follow dir.dropLast rest
    else match w.node (dir ++ [component]) with
      | none => none
      | some (.dir ..) => walkPath w follow (dir ++ [component]) rest
      | some (.file ..) => if rest = [] then some (dir ++ [component]) else none
      | some (.symlink target ..) =>
        follow (if Text.startsWith target "/" then [] else dir) (Text.splitChar '/' target ++ rest)

/-- Follows a path through no more than a number of links. -/
def resolve (w : Disk) : Nat → List String → List String → Option (List String)
  | 0 => w.walkPath fun _ _ => none
  | links + 1 => w.walkPath (resolve w links)

/-- Where a path leads to, all links followed. The kernel follows 40 at most. -/
def locate (w : Disk) (cwd : List String) (path : String) : Option (List String) :=
  if path = "" || Text.hasChar '\x00' path then none
  else w.resolve 40 (if Text.startsWith path "/" then [] else cwd) (Text.splitChar '/' path)

end Disk

variable {env : ScanEnv} {w : Disk} {cwd dir path : List String} {sub name : String}
  {s : ScanState} {x : FileInfo} {node : DiskNode}

namespace ScanEnv

variable (env : ScanEnv) (w : Disk) (cwd : List String) (sub : String)

/-- The directory a sub-scan starts from. -/
def scanRoot : Except SyncError (List String) :=
  let shown := pathJoin env.folderPath sub
  match w.locate cwd shown with
  | none => .error (.scan env.folderId ("Path does not exist: " ++ shown))
  | some dir =>
    if w.isDir dir then .ok dir
    else .error (.scan env.folderId ("Path is not a directory: " ++ shown))

/-- `scan_folder_at` with a `sub`, on the disk of the machine. -/
def scanFolderSub : ScanM (List FileInfo) := do
  if isDefaultIgnoredPath sub then return []
  let dir ← require (env.scanRoot w cwd sub)
  if isIgnoredWithAncestors env.matcher sub true then return []
  let files ← require (env.scanDirectory w (w.depth + 1) dir sub)
  let compared ← collect env.compareFile files
  (orderChanged (some sub) compared).forM env.updateFile
  return orderChanged (some sub) compared

/-- Where no call fails. -/
def calm : ScanEnv := { env with fault := fun _ => none }

/-- Where just one call fails. -/
def failing (step : ScanStep) : ScanEnv :=
  { env with fault := fun call => if call = step then some "Input/output error" else none }

/-- The sub-scan makes the call: it returns, but not if just this call fails. -/
def Calls (s : ScanState) (step : ScanStep) : Prop :=
  (result? (env.calm.scanFolderSub w cwd sub) s).isSome ∧
    result? ((env.failing step).scanFolderSub w cwd sub) s = none

/-- Where `.stignore` is read from, through links, once the directory to scan is found. -/
def ReadsIgnoreFile (path : List String) : Prop :=
  isDefaultIgnoredPath sub = false ∧ (∃ dir, env.scanRoot w cwd sub = .ok dir) ∧
    w.locate cwd (pathJoin env.folderPath ".stignore") = some path ∧
    ∃ content modified, w.node path = some (.file content modified)

/-- The path is at or below the root of the folder. -/
def InFolder (path : List String) : Prop :=
  ∃ root, w.locate cwd env.folderPath = some root ∧ root <+: path

/-- A sub-scan stores and reports only names that would be accepted from a peer, whichever of its
calls fail, and reads nothing outside the folder. -/
structure InScope (s : ScanState) : Prop where
  names : ∀ fault, Ends (scanFolderSub { env with fault } w cwd sub)
    (fun out t => (∀ r ∈ out, validateRemoteName r.name = .ok ()) ∧
      ∀ r ∈ t.db.entries, r ∈ s.db.entries ∨ validateRemoteName r.name = .ok ())
    (fun t => ∀ r ∈ t.db.entries, r ∈ s.db.entries ∨ validateRemoteName r.name = .ok ()) s
  reads : ∀ path, ((∃ step, ScanStep.path? step = some path ∧ env.Calls w cwd sub s step) ∨
    env.ReadsIgnoreFile w cwd sub path) → env.InFolder w cwd path

/-- If there is a directory to scan, neither `.stignore` nor the directory is outside the folder,
and what is found below it has names that would be accepted from a peer, or is recorded as it is. -/
def Confined (db : FolderFiles) : Prop :=
  isDefaultIgnoredPath sub = false → ∀ dir, env.scanRoot w cwd sub = .ok dir →
    (∀ path, env.ReadsIgnoreFile w cwd sub path → env.InFolder w cwd path) ∧
    (isIgnoredWithAncestors env.matcher sub true = false → env.InFolder w cwd dir ∧
      ∀ path name node, env.Visits w dir sub path name node →
        validateRemoteName name = .ok () ∨ Recorded db name (nodeHashes env.sha256 node))

end ScanEnv

/-- A record of something the walk came to and that was not recorded so. -/
def WalkedTo (env : ScanEnv) (w : Disk) (dir : List String) (sub : String) (db : FolderFiles)
    (x : FileInfo) : Prop :=
  ∃ path node, env.Visits w dir sub path x.name node ∧
    ¬ Recorded db x.name (nodeHashes env.sha256 node)

theorem ends_scanFolderSub (hmetadata : isDefaultIgnoredPath sub = false)
    (hroot : env.scanRoot w cwd sub = .ok dir)
    (hignored : isIgnoredWithAncestors env.matcher sub true = false) :
    Ends (env.scanFolderSub w cwd sub)
      (fun out t => t.db = s.db.upsertAll out ∧ (∀ x ∈ out, WalkedTo env w dir sub s.db x) ∧
        ∀ path name node, env.Visits w dir sub path name node →
          Recorded s.db name (nodeHashes env.sha256 node) ∨ ∃ x ∈ out, x.name = name)
      (fun t => env.Fails dir ∧ ∃ stored, t.db = s.db.upsertAll stored ∧
        ∀ x ∈ stored, WalkedTo env w dir sub s.db x) s := by
  unfold scanFolderSub
  simp only [ends_ite, ends_bind, ends_pure, ends_require, hmetadata, hroot, hignored,
    Bool.false_eq_true, false_imp_iff, true_and, not_false_eq_true, true_imp_iff, Except.ok.injEq,
    reduceCtorEq, implies_true, and_true, forall_eq']
  refine ⟨fun files hfiles => ?_, fun _ herror => ⟨fails_of_scanDirectory herror, [], rfl, by simp⟩⟩
  have hwalked : ∀ file ∈ files, ∀ x, Compared env s.db file x → WalkedTo env w dir sub s.db x := by
    intro file hfile x hc
    obtain ⟨path, name, node, hvisits, rfl⟩ := (mem_scanDirectory_depth_iff hfiles).mp hfile
    obtain ⟨hname, -, hnot⟩ := unrecorded_of_compared hc
    rw [name_scannedEntry] at hname
    rw [name_scannedEntry, blockHashes_scannedEntry] at hnot
    refine ⟨path, node, ?_, ?_⟩
    · rwa [hname]
    · rwa [hname]
  have hstore := @ends_storeCompared env s sub dir _ _ (live_of_scanDirectory hfiles) hwalked
  simp only [ends_bind, ends_pure] at hstore
  refine hstore.imp (fun compared t ht => ht.imp (fun _ u hu => ?_) fun _ => id) fun _ => id
  obtain ⟨hudb, hfound, hchanged⟩ := hu
  refine ⟨hudb, hfound, fun path name node hvisits => ?_⟩
  have hfile := (mem_scanDirectory_depth_iff hfiles).mpr ⟨path, name, node, hvisits, rfl⟩
  simpa using hchanged _ hfile

/-- A sub-scan of a path that is left out does nothing. -/
theorem ends_scanFolderSub_skipped (h : isDefaultIgnoredPath sub = true ∨
      (∃ dir, env.scanRoot w cwd sub = .ok dir) ∧
        isIgnoredWithAncestors env.matcher sub true = true) :
    Ends (env.scanFolderSub w cwd sub) (fun out t => out = [] ∧ t = s) (fun _ => False) s := by
  unfold scanFolderSub
  simp only [ends_ite, ends_bind, ends_pure, ends_require]
  refine ⟨fun _ => ⟨trivial, trivial⟩, fun hmetadata => ?_⟩
  obtain ⟨⟨dir, hroot⟩, hignored⟩ := h.resolve_left hmetadata
  refine ⟨fun _ _ => ⟨fun _ => ⟨trivial, trivial⟩, fun hnot => absurd hignored hnot⟩,
    fun _ herror => ?_⟩
  rw [hroot] at herror
  cases herror

/-- Without a directory to scan, a sub-scan fails. -/
theorem ends_scanFolderSub_no_root (hmetadata : isDefaultIgnoredPath sub = false)
    (hroot : ∀ dir, env.scanRoot w cwd sub ≠ .ok dir) :
    Ends (env.scanFolderSub w cwd sub) (fun _ _ => False) (fun t => t = s) s := by
  unfold scanFolderSub
  simp only [ends_ite, ends_bind, ends_pure, ends_require, hmetadata]
  exact ⟨fun h => absurd h Bool.false_ne_true, fun _ =>
    ⟨fun dir hdir => absurd hdir (hroot dir), fun _ _ => trivial⟩⟩

theorem entries_upsertAll_valid {db : FolderFiles} {stored : List FileInfo}
    (h : ∀ x ∈ stored, validateRemoteName x.name = .ok ()) :
    ∀ r ∈ (db.upsertAll stored).entries, r ∈ db.entries ∨ validateRemoteName r.name = .ok () := by
  intro r hr
  have hfind := KeyedList.find?_key hr
  by_cases hmem : ∃ x ∈ stored, x.name = r.name
  · obtain ⟨x, hx, hname⟩ := hmem
    exact .inr (hname ▸ h x hx)
  · rw [KeyedList.find?_upsertAll_of_notMem fun x hx hname => hmem ⟨x, hx, hname⟩] at hfind
    exact .inl (KeyedList.find?_eq_some_iff.mp hfind).1

/-- Either a sub-scan does nothing, whichever calls fail, or it fails, or it walks a directory. -/
theorem scanFolderSub_cases (env : ScanEnv) (w : Disk) (cwd : List String) (sub : String) :
    (isDefaultIgnoredPath sub = true ∨ (∃ dir, env.scanRoot w cwd sub = .ok dir) ∧
      isIgnoredWithAncestors env.matcher sub true = true) ∨
    (isDefaultIgnoredPath sub = false ∧ ∀ dir, env.scanRoot w cwd sub ≠ .ok dir) ∨
    ∃ dir, isDefaultIgnoredPath sub = false ∧ env.scanRoot w cwd sub = .ok dir ∧
      isIgnoredWithAncestors env.matcher sub true = false := by
  cases hmetadata : isDefaultIgnoredPath sub with
  | true => exact .inl (.inl rfl)
  | false =>
    by_cases hroot : ∃ dir, env.scanRoot w cwd sub = .ok dir
    · cases hignored : isIgnoredWithAncestors env.matcher sub true with
      | true => exact .inl (.inr ⟨hroot, rfl⟩)
      | false =>
        obtain ⟨dir, hroot⟩ := hroot
        exact .inr (.inr ⟨dir, rfl, hroot, rfl⟩)
    · exact .inr (.inl ⟨rfl, fun dir hdir => hroot ⟨dir, hdir⟩⟩)

/-- The names of what a confined sub-scan stores would be accepted from a peer. -/
theorem ends_scanFolderSub_valid (h : env.Confined w cwd sub s.db) :
    Ends (env.scanFolderSub w cwd sub)
      (fun out t => (∀ r ∈ out, validateRemoteName r.name = .ok ()) ∧
        ∀ r ∈ t.db.entries, r ∈ s.db.entries ∨ validateRemoteName r.name = .ok ())
      (fun t => ∀ r ∈ t.db.entries, r ∈ s.db.entries ∨ validateRemoteName r.name = .ok ()) s := by
  rcases scanFolderSub_cases env w cwd sub with hskip | ⟨hmetadata, hroot⟩ |
    ⟨dir, hmetadata, hroot, hignored⟩
  · refine (ends_scanFolderSub_skipped hskip).imp ?_ fun _ => False.elim
    rintro out t ⟨rfl, rfl⟩
    exact ⟨by simp, fun r hr => .inl hr⟩
  · refine (ends_scanFolderSub_no_root hmetadata hroot).imp (fun _ _ => False.elim) ?_
    rintro t rfl r hr
    exact .inl hr
  · have hvalid : ∀ x, WalkedTo env w dir sub s.db x → validateRemoteName x.name = .ok () := by
      rintro x ⟨path, node, hvisits, hnot⟩
      exact (((h hmetadata dir hroot).2 hignored).2 path x.name node hvisits).resolve_right hnot
    refine (ends_scanFolderSub hmetadata hroot hignored).imp (fun out t ht => ?_) fun t ht => ?_
    · obtain ⟨htdb, hwalked, -⟩ := ht
      have hout : ∀ r ∈ out, validateRemoteName r.name = .ok () :=
        fun r hr => hvalid r (hwalked r hr)
      exact ⟨hout, htdb ▸ entries_upsertAll_valid hout⟩
    · obtain ⟨-, stored, htdb, hwalked⟩ := ht
      exact htdb ▸ entries_upsertAll_valid fun r hr => hvalid r (hwalked r hr)

/-- The calls of a sub-scan look at and below the directory it walks. -/
theorem exists_walk_of_calls {step : ScanStep} (hpath : step.path? = some path)
    (h : env.Calls w cwd sub s step) :
    ∃ dir, isDefaultIgnoredPath sub = false ∧ env.scanRoot w cwd sub = .ok dir ∧
      isIgnoredWithAncestors env.matcher sub true = false ∧ dir <+: path := by
  obtain ⟨hcalm, hfaulty⟩ := h
  rcases scanFolderSub_cases env w cwd sub with hskip | ⟨hmetadata, hroot⟩ |
    ⟨dir, hmetadata, hroot, hignored⟩
  · exact ((@ends_scanFolderSub_skipped (env.failing step) w cwd sub s hskip).of_result?_none
      hfaulty).elim
  · obtain ⟨out, hout⟩ := Option.isSome_iff_exists.mp hcalm
    exact ((@ends_scanFolderSub_no_root env.calm w cwd sub s hmetadata hroot).result? hout).elim
  · refine ⟨dir, hmetadata, hroot, hignored, ?_⟩
    obtain ⟨⟨call, hfault, hbelow⟩, -⟩ :=
      (@ends_scanFolderSub (env.failing step) w cwd dir sub s hmetadata hroot
        hignored).of_result?_none hfaulty
    obtain rfl : call = step := by
      by_contra hne
      exact hfault (if_neg hne)
    exact hbelow path hpath

theorem ScanEnv.InFolder.below (h : env.InFolder w cwd dir) (hle : dir <+: path) :
    env.InFolder w cwd path := by
  obtain ⟨root, hroot, hdir⟩ := h
  exact ⟨root, hroot, hdir.trans hle⟩

section
variable (hmetadata : isDefaultIgnoredPath sub = false)
include hmetadata

/-- A walk no call of which fails. -/
theorem ends_scanFolderSub_calm (hroot : env.scanRoot w cwd sub = .ok dir)
    (hignored : isIgnoredWithAncestors env.matcher sub true = false) :
    Ends (env.calm.scanFolderSub w cwd sub)
      (fun out _ => ∀ path name node, env.Visits w dir sub path name node →
        Recorded s.db name (nodeHashes env.sha256 node) ∨ ∃ x ∈ out, x.name = name)
      (fun _ => False) s :=
  (@ends_scanFolderSub env.calm w cwd dir sub s hmetadata hroot hignored).imp
    (fun _ _ ht path name node hvisits => ht.2.2 path name node (hvisits.of_matcher rfl))
    fun _ ht => not_fails_of_calm (fun _ => rfl) ht.1

/-- A sub-scan that walks a directory reads it. -/
theorem calls_readDir (hroot : env.scanRoot w cwd sub = .ok dir)
    (hignored : isIgnoredWithAncestors env.matcher sub true = false) :
    env.Calls w cwd sub s (.readDir dir) := by
  constructor
  · obtain ⟨out, t, hok, -⟩ :=
      (@ends_scanFolderSub_calm env w cwd dir sub s hmetadata hroot hignored).exists_ok
    simp [result?, hok]
  · have hwalk : (env.failing (.readDir dir)).scanDirectory w (w.depth + 1) dir sub =
        .error (.scan env.folderId ("Failed to read directory: " ++ "Input/output error")) := by
      simp [failing, scanDirectory, check, bind, Except.bind]
    have hfails : Ends ((env.failing (.readDir dir)).scanFolderSub w cwd sub) (fun _ _ => False)
        (fun _ => True) s := by
      unfold scanFolderSub
      simp only [ends_ite, ends_bind, ends_pure, ends_require, hmetadata]
      refine ⟨fun h => absurd h Bool.false_ne_true, fun _ => ⟨fun dir' hdir' => ⟨fun h => ?_,
        fun _ => ⟨fun files hfiles => ?_, fun _ _ => trivial⟩⟩, fun _ _ => trivial⟩⟩
      · exact absurd h ((Bool.not_eq_true _).mpr hignored)
      · obtain rfl : dir = dir' := Except.ok.inj (hroot.symm.trans hdir')
        rw [hwalk] at hfiles
        cases hfiles
    cases hresult : result? ((env.failing (.readDir dir)).scanFolderSub w cwd sub) s with
    | none => rfl
    | some out => exact (hfails.result? hresult).elim

end

/-- A sub-scan stays inside the folder exactly if it is confined. -/
theorem sub_scan_in_scope_iff : env.InScope w cwd sub s ↔ env.Confined w cwd sub s.db := by
  constructor
  · intro hscope hmetadata dir hroot
    refine ⟨fun path hreads => hscope.reads path (.inr hreads), fun hignored => ⟨?_, ?_⟩⟩
    · exact hscope.reads dir (.inl ⟨.readDir dir, rfl, calls_readDir hmetadata hroot hignored⟩)
    · intro path name node hvisits
      by_contra hnot
      rw [not_or] at hnot
      obtain ⟨out, t, hok, hchanged⟩ := (ends_scanFolderSub_calm hmetadata hroot hignored).exists_ok
      rcases hchanged path name node hvisits with hrecorded | ⟨x, hx, rfl⟩
      · exact hnot.2 hrecorded
      · exact hnot.1 (((hscope.names _).of_ok hok).1 x hx)
  · intro hconfined
    refine ⟨fun fault => ?_, ?_⟩
    · refine ends_scanFolderSub_valid fun hmetadata dir hroot => ?_
      obtain ⟨hignore, hwalk⟩ := hconfined hmetadata dir hroot
      refine ⟨hignore, fun hignored => ⟨(hwalk hignored).1, fun path name node hvisits => ?_⟩⟩
      exact (hwalk hignored).2 path name node (hvisits.of_matcher rfl)
    · rintro path (⟨step, hpath, hcalls⟩ | hreads)
      · obtain ⟨dir, hmetadata, hroot, hignored, hle⟩ := exists_walk_of_calls hpath hcalls
        exact ((hconfined hmetadata dir hroot).2 hignored).1.below hle
      · obtain ⟨hmetadata, ⟨dir, hroot⟩, -⟩ := id hreads
        exact (hconfined hmetadata dir hroot).1 path hreads

/-- A folder `/srv/folder` beside a directory `/srv/other`. -/
def sharedMachine : Disk :=
  (((FileStore.empty.set ["srv"] (.dir (0, 0) 4096)).set ["srv", "folder"] (.dir (0, 0) 4096)).set
    ["srv", "other"] (.dir (0, 0) 4096)).set ["srv", "other", "x"] (.file [7] (0, 0))

def sharedScan : ScanEnv := { calmScan 1 with folderPath := "/srv/folder" }

/-- A sub-scan of `../other` announces `../other/x` and reads a file outside the folder. -/
theorem sub_scan_leaves_folder :
    (∃ out t, sharedScan.scanFolderSub sharedMachine [] "../other" ⟨.empty, 0⟩ = .ok out t ∧
      out.map (·.name) = ["../other/x"] ∧ t.db.entries = out) ∧
    validateRemoteName "../other/x" = .error .invalidFileName ∧
    sharedScan.Calls sharedMachine [] "../other" ⟨.empty, 0⟩ (.readFile ["srv", "other", "x"]) ∧
    sharedMachine.locate [] sharedScan.folderPath = some ["srv", "folder"] := by
  refine ⟨⟨_, _, rfl, by decide, by decide⟩, by decide, ⟨by rfl, by rfl⟩, by decide⟩

end Syncthing
