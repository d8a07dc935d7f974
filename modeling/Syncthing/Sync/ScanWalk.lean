import Syncthing.Sync.ScannerRecords

/-! The walk of `scan_directory` from any directory, with any prefix for the names it makes. -/
namespace Syncthing

open Program List

variable {env : ScanEnv} {d : Disk} {file : FileInfo} {dir path : List String}
  {start name : String} {node : DiskNode} {sha256 : Bytes → Bytes}
  {recurse : List String → String → Except SyncError (List FileInfo)} {files : List FileInfo}
  {depth : Nat}

/-- The prefix a scan has built when it reads the directory at a path. -/
def rawPrefix (path : List String) : String := path.foldl pushPath ""

/-- The name under which a scan of the folder records what is at a path. -/
def entryName (path : List String) : String :=
  ScanEnv.relativePath (rawPrefix path.dropLast) (path.getLast?.getD "")

/-- The block hashes a scan gives to what it finds. -/
def nodeHashes (sha256 : Bytes → Bytes) : DiskNode → List Bytes
  | .file content _ => (contentBlocks sha256 content).map (·.hash)
  | .dir .. | .symlink .. => []

/-- The entry a scan makes of what it finds. -/
def scannedEntry (sha256 : Bytes → Bytes) (name : String) : DiskNode → FileInfo
  | .file content modified => contentInfo sha256 name content modified
  | .dir modified _ => directoryInfo name modified
  | .symlink target modified _ => symlinkInfo name target modified

def DiskNode.isDirectory : DiskNode → Bool
  | .dir .. => true
  | .file .. | .symlink .. => false

@[simp] theorem name_scannedEntry : (scannedEntry sha256 name node).name = name := by
  cases node <;> rfl

@[simp] theorem blockHashes_scannedEntry :
    (scannedEntry sha256 name node).blockHashes = nodeHashes sha256 node := by
  cases node <;> rfl

@[simp] theorem isDeleted_scannedEntry : (scannedEntry sha256 name node).isDeleted = false := by
  cases node <;> rfl

theorem rawPrefix_push (front : List String) (last : String) :
    pushPath (rawPrefix front) last = rawPrefix (front ++ [last]) := by
  simp [rawPrefix]

theorem entryName_concat (front : List String) (last : String) :
    entryName (front ++ [last]) = ScanEnv.relativePath (rawPrefix front) last := by
  simp [entryName]

theorem ne_empty_of_listed {last : String} (h : ["", ".", ".."].contains last = false) :
    last ≠ "" := by
  rintro rfl
  cases h

/-- Of the names that no directory lists, the scan would skip all but the empty one. -/
theorem listed_of_scanned {last : String} (hlast : last ≠ "") (hskip : skippedName last = false) :
    ["", ".", ".."].contains last = false := by
  have hdot : last ≠ "." := by
    rintro rfl
    cases hskip
  have hdots : last ≠ ".." := by
    rintro rfl
    cases hskip
  simp [hlast, hdot, hdots]

/-- A scan of the directory `dir`, with the prefix `start` for its names, comes to what is at
`path` and calls it `name`. It goes through directories only. -/
inductive ScanEnv.Visits (env : ScanEnv) (d : Disk) :
    List String → String → List String → String → DiskNode → Prop where
  | entry {dir start last node} (hnode : d.node (dir ++ [last]) = some node)
    (hlast : last ≠ "") (hskip : skippedName last = false)
    (hmatch : env.matcher (relativePath start last) node.isDirectory = false) :
    Visits env d dir start (dir ++ [last]) (relativePath start last) node
  | inside {dir start last path name node modified len}
    (hnode : d.node (dir ++ [last]) = some (.dir modified len))
    (hlast : last ≠ "") (hskip : skippedName last = false)
    (hmatch : env.matcher (relativePath start last) true = false)
    (h : Visits env d (dir ++ [last]) (pushPath start last) path name node) :
    Visits env d dir start path name node

namespace ScanEnv

section
variable (h : env.Visits d dir start path name node)
include h

theorem Visits.length_lt : dir.length < path.length := by
  induction h with
  | entry => simp
  | inside _ _ _ _ _ ih =>
    rw [length_append] at ih
    omega

theorem Visits.node_eq : d.node path = some node := by
  induction h with
  | entry hnode => exact hnode
  | inside _ _ _ _ _ ih => exact ih

theorem Visits.ne_nil : path ≠ [] := by
  have hlen := h.length_lt
  rintro rfl
  simp at hlen

end

theorem scanFile_ok {content : Bytes} {modified : Mtime}
    (h : env.scanFile path name content modified = .ok file) :
    file = contentInfo env.sha256 name content modified := by
  unfold scanFile at h
  split at h
  · obtain ⟨_, -, h⟩ := bind_eq_ok.mp h
    obtain ⟨_, -, h⟩ := bind_eq_ok.mp h
    exact (Except.ok.inj h).symm
  · exact (Except.ok.inj h).symm

/-- An entry of a directory gives nothing, or itself after what is below it. -/
theorem scanEntry_ok
    {last : String}
    (h : env.scanEntry d recurse start (dir ++ [last]) = .ok files) :
    (files = [] ∧ (skippedName last = true ∨ ∀ node, d.node (dir ++ [last]) = some node →
      env.matcher (relativePath start last) node.isDirectory = true)) ∨
    ∃ node, d.node (dir ++ [last]) = some node ∧ skippedName last = false ∧
      env.matcher (relativePath start last) node.isDirectory = false ∧
      ((node.isDirectory = false ∧
          files = [scannedEntry env.sha256 (relativePath start last) node]) ∨
        ∃ modified len sub, node = .dir modified len ∧
          recurse (dir ++ [last]) (pushPath start last) = .ok sub ∧
          files = sub ++ [scannedEntry env.sha256 (relativePath start last) node]) := by
  have hlast : (dir ++ [last]).getLast?.getD "" = last := by simp
  unfold scanEntry at h
  simp only [hlast, Disk.nodeAt_eq (append_ne_nil_of_right_ne_nil dir (cons_ne_nil last _))]
    at h
  split at h
  next hskip =>
    cases h
    exact .inl ⟨rfl, .inl hskip⟩
  next hskip =>
    rw [Bool.not_eq_true] at hskip
    obtain ⟨-, -, h⟩ := bind_eq_ok.mp h
    split at h
    next hnode =>
      cases h
      exact .inl ⟨rfl, .inr fun node h => by rw [hnode] at h; cases h⟩
    next modified len hnode =>
      split at h
      next hmatch =>
        cases h
        refine .inl ⟨rfl, .inr fun node h => ?_⟩
        rw [hnode] at h
        cases h
        exact hmatch
      next hmatch =>
        obtain ⟨sub, hsub, h⟩ := bind_eq_ok.mp h
        cases h
        exact .inr ⟨_, hnode, hskip, (Bool.not_eq_true _).mp hmatch,
          .inr ⟨modified, len, sub, rfl, hsub, rfl⟩⟩
    next content modified hnode =>
      split at h
      next hmatch =>
        cases h
        refine .inl ⟨rfl, .inr fun node h => ?_⟩
        rw [hnode] at h
        cases h
        exact hmatch
      next hmatch =>
        obtain ⟨f, hf, h⟩ := bind_eq_ok.mp h
        cases h
        cases scanFile_ok hf
        exact .inr ⟨_, hnode, hskip, (Bool.not_eq_true _).mp hmatch, .inl ⟨rfl, rfl⟩⟩
    next target modified view hnode =>
      split at h
      next hmatch =>
        cases h
        refine .inl ⟨rfl, .inr fun node h => ?_⟩
        rw [hnode] at h
        cases h
        exact hmatch
      next hmatch =>
        obtain ⟨-, -, h⟩ := bind_eq_ok.mp h
        cases h
        exact .inr ⟨_, hnode, hskip, (Bool.not_eq_true _).mp hmatch, .inl ⟨rfl, rfl⟩⟩

/-- The entries of a scan are those of what it comes to. -/
theorem mem_scanDirectory_iff
    (h : env.scanDirectory d depth dir start = .ok files) :
    file ∈ files ↔ ∃ path name node, path.length ≤ dir.length + depth ∧
      env.Visits d dir start path name node ∧ file = scannedEntry env.sha256 name node := by
  induction depth generalizing dir start files with
  | zero =>
    cases h
    refine ⟨fun hfile => (not_mem_nil hfile).elim, ?_⟩
    rintro ⟨path, name, node, hlen, hvisits, -⟩
    have := hvisits.length_lt
    omega
  | succ depth ih =>
    obtain ⟨-, -, h⟩ := bind_eq_ok.mp h
    obtain ⟨lists, hlists, h⟩ := bind_eq_ok.mp h
    cases h
    constructor
    · intro hfile
      obtain ⟨l, hl, hfile⟩ := mem_flatten.mp hfile
      obtain ⟨child, hchild, hl⟩ := exists_of_mapM_eq_ok hlists hl
      obtain ⟨last, rfl, -, hlisted⟩ := Disk.exists_of_mem_readDir hchild
      have hlast := ne_empty_of_listed hlisted
      rcases scanEntry_ok hl with ⟨rfl, -⟩ | ⟨node, hnode, hskip, hmatch, ⟨-, rfl⟩ |
        ⟨modified, len, sub, rfl, hsub, rfl⟩⟩
      · cases hfile
      · cases mem_singleton.mp hfile
        exact ⟨_, _, node, by simp, .entry hnode hlast hskip hmatch, rfl⟩
      · rcases mem_append.mp hfile with hfile | hfile
        · obtain ⟨path, name, node, hlen, hvisits, rfl⟩ := (ih hsub).mp hfile
          refine ⟨path, name, node, ?_, .inside hnode hlast hskip hmatch hvisits, rfl⟩
          rw [length_append, length_singleton] at hlen
          omega
        · cases mem_singleton.mp hfile
          exact ⟨_, _, _, by simp, .entry hnode hlast hskip hmatch, rfl⟩
    · rintro ⟨path, name, node, hlen, hvisits, rfl⟩
      have hchild {last node'} (hnode : d.node (dir ++ [last]) = some node') (hlast : last ≠ "")
          (hskip : skippedName last = false) :=
        exists_mem_of_mapM_eq_ok hlists
          (Disk.concat_mem_readDir (by simp [hnode]) (listed_of_scanned hlast hskip))
      cases hvisits with
      | @entry _ _ last _ hnode hlast hskip hmatch =>
        obtain ⟨l, hl, hentry⟩ := hchild hnode hlast hskip
        refine mem_flatten.mpr ⟨l, hl, ?_⟩
        rcases scanEntry_ok hentry with ⟨-, hnot⟩ | ⟨node', hnode', -, -, ⟨-, rfl⟩ |
          ⟨modified, len, sub, -, -, rfl⟩⟩
        · rcases hnot with hnot | hnot
          · rw [hskip] at hnot
            cases hnot
          · rw [hnot node hnode] at hmatch
            cases hmatch
        · rw [hnode] at hnode'
          cases hnode'
          exact mem_singleton_self _
        · rw [hnode] at hnode'
          cases hnode'
          exact mem_append_right _ (mem_singleton_self _)
      | @inside _ _ last _ _ _ modified len hnode hlast hskip hmatch hvisits =>
        obtain ⟨l, hl, hentry⟩ := hchild hnode hlast hskip
        refine mem_flatten.mpr ⟨l, hl, ?_⟩
        rcases scanEntry_ok hentry with ⟨-, hnot⟩ | ⟨node', hnode', -, -, ⟨hleaf, -⟩ |
          ⟨modified, len, sub, -, hsub, rfl⟩⟩
        · rcases hnot with hnot | hnot
          · rw [hskip] at hnot
            cases hnot
          · have := hnot _ hnode
            rw [DiskNode.isDirectory, hmatch] at this
            cases this
        · rw [hnode] at hnode'
          cases hnode'
          cases hleaf
        · refine mem_append_left _ ((ih hsub).mpr ⟨path, name, node, ?_, hvisits, rfl⟩)
          rw [length_append, length_singleton]
          omega

theorem length_le_depth (hnode : (d.node path).isSome) : path.length ≤ d.depth := by
  have hmem : path.length ∈ d.paths.map length := mem_map_of_mem (d.listed hnode)
  unfold Disk.depth
  generalize d.paths.map length = lengths at hmem
  induction lengths with
  | nil => cases hmem
  | cons n lengths ih =>
    rw [foldr_cons]
    rcases mem_cons.mp hmem with rfl | hmem
    · exact le_max_left _ _
    · exact (ih hmem).trans (le_max_right _ _)

/-- The depth a scan is given is enough to come to everything. -/
theorem mem_scanDirectory_depth_iff
    (h : env.scanDirectory d (d.depth + 1) dir start = .ok files) :
    file ∈ files ↔ ∃ path name node, env.Visits d dir start path name node ∧
      file = scannedEntry env.sha256 name node := by
  rw [mem_scanDirectory_iff h]
  constructor
  · rintro ⟨path, name, node, -, hvisits, hfile⟩
    exact ⟨path, name, node, hvisits, hfile⟩
  · rintro ⟨path, name, node, hvisits, hfile⟩
    refine ⟨path, name, node, ?_, hvisits, hfile⟩
    have := @length_le_depth d path (by simp [hvisits.node_eq])
    omega

theorem live_of_scanDirectory (h : env.scanDirectory d (d.depth + 1) dir start = .ok files) :
    ∀ file ∈ files, file.isDeleted = false := by
  intro file hfile
  obtain ⟨path, name, node, -, rfl⟩ := (mem_scanDirectory_depth_iff h).mp hfile
  exact isDeleted_scannedEntry

/-- A scan with the prefix of the directory names what it finds by its path. -/
theorem Visits.name_eq (h : env.Visits d dir start path name node) (hstart : start = rawPrefix dir) :
    name = entryName path := by
  induction h with
  | entry => rw [hstart, entryName_concat]
  | inside _ _ _ _ _ ih => exact ih (by rw [hstart, rawPrefix_push])

theorem scanDirectory_entry
    (h : env.scanDirectory d depth dir (rawPrefix dir) = .ok files) (hfile : file ∈ files) :
    ∃ path node, path ≠ [] ∧ d.nodeAt path = some node ∧
      file = scannedEntry env.sha256 (entryName path) node := by
  obtain ⟨path, name, node, -, hvisits, rfl⟩ := (mem_scanDirectory_iff h).mp hfile
  refine ⟨path, node, hvisits.ne_nil, ?_, by rw [hvisits.name_eq rfl]⟩
  rw [Disk.nodeAt_eq hvisits.ne_nil, hvisits.node_eq]

section failures
variable {step : ScanStep} {error : IoError → SyncError} {e : SyncError}

theorem Fails.mono {dir' : List String} (h : env.Fails dir) (hle : dir' <+: dir) :
    env.Fails dir' := by
  obtain ⟨step, hfault, hpath⟩ := h
  exact ⟨step, hfault, fun path hstep => hle.trans (hpath path hstep)⟩

theorem not_fails_of_calm (h : ∀ step, env.fault step = none) : ¬ env.Fails dir :=
  fun ⟨step, hfault, _⟩ => hfault (h step)

theorem fails_of_check (hpath : step.path? = some path) (hdir : dir <+: path)
    (h : env.check step error = .error e) : env.Fails dir := by
  refine ⟨step, fault_of_check h, fun path' hpath' => ?_⟩
  rw [hpath] at hpath'
  cases hpath'
  exact hdir

theorem fails_of_scanFile {content : Bytes} {modified : Mtime} (hdir : dir <+: path)
    (h : env.scanFile path name content modified = .error e) : env.Fails dir := by
  unfold scanFile at h
  split at h
  · rcases bind_eq_error.mp h with h | ⟨_, -, h⟩
    · exact fails_of_check rfl hdir h
    · rcases bind_eq_error.mp h with h | ⟨_, -, h⟩
      · exact fails_of_check rfl hdir h
      · cases h
  · cases h

theorem fails_of_scanEntry
    (hrecurse : ∀ start e, recurse path start = .error e → env.Fails path) (hdir : dir <+: path)
    (h : env.scanEntry d recurse start path = .error e) : env.Fails dir := by
  unfold scanEntry at h
  simp only [] at h
  split at h
  · cases h
  · rcases bind_eq_error.mp h with h | ⟨_, -, h⟩
    · exact fails_of_check rfl hdir h
    · split at h
      · cases h
      · split at h
        · cases h
        · rcases bind_eq_error.mp h with h | ⟨_, -, h⟩
          · exact (hrecurse _ _ h).mono hdir
          · cases h
      · split at h
        · cases h
        · rcases bind_eq_error.mp h with h | ⟨_, -, h⟩
          · exact fails_of_scanFile hdir h
          · cases h
      · split at h
        · cases h
        · rcases bind_eq_error.mp h with h | ⟨_, -, h⟩
          · exact fails_of_check rfl hdir h
          · cases h

/-- A walk fails only if a call at or below its directory does. -/
theorem fails_of_scanDirectory
    (h : env.scanDirectory d depth dir start = .error e) : env.Fails dir := by
  induction depth generalizing dir start e with
  | zero => cases h
  | succ depth ih =>
    rcases bind_eq_error.mp h with h | ⟨_, -, h⟩
    · exact fails_of_check rfl (prefix_refl dir) h
    · rcases bind_eq_error.mp h with h | ⟨_, -, h⟩
      · obtain ⟨child, hchild, h⟩ := exists_of_mapM_eq_error h
        obtain ⟨last, rfl, -, -⟩ := Disk.exists_of_mem_readDir hchild
        exact fails_of_scanEntry (fun _ _ => ih) (prefix_append dir [last]) h
      · cases h

end failures

end ScanEnv
end Syncthing
