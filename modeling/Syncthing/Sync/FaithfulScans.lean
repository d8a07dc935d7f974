import Syncthing.Sync.ScanOrigin

/-! The database after a scan of a folder whose files do not change meanwhile, whatever it held
before. The database is taken as a map (see `DatabaseRefinement`). -/
namespace Syncthing

open Program List KeyedList Option
open Text

variable {env : ScanEnv} {d : Disk} {db : FolderFiles} {s t : ScanState} {file r : FileInfo}
  {path above dir : List String} {node : DiskNode}

/-- Directories, with files and links below them, under names without separators. -/
structure IsTree (d : Disk) : Prop where
  parent : ∀ path, (d.node path).isSome → path.dropLast ≠ [] →
    ∃ modified len, d.node path.dropLast = some (.dir modified len)
  named : ∀ path, (d.node path).isSome → ∀ name ∈ path,
    name ≠ "" ∧ hasChar '/' name = false ∧ hasChar '\\' name = false

/-- Directories lead to the path, under names that are not empty. -/
structure Leads (d : Disk) (path : List String) : Prop where
  named : ∀ name ∈ path, name ≠ ""
  above : ∀ above, above ≠ [] → above <+: path → above ≠ path →
    ∃ modified len, d.node above = some (.dir modified len)

/-- The path, or a directory above it, has a name that no scan looks at or matches an ignore
rule. -/
def Excluded (env : ScanEnv) (d : Disk) (path : List String) : Prop :=
  (∃ name ∈ path, skippedName name = true) ∨
  ∃ above node, above ≠ [] ∧ above <+: path ∧ d.node above = some node ∧
    env.matcher (entryName above) node.isDirectory = true

section names

/-- Behind a name, `PathBuf::push` puts a separator. -/
theorem rawPrefix_concat {front : List String} {last : String}
    (hnames : ∀ name ∈ front, name ≠ "" ∧ hasChar '/' name = false) :
    rawPrefix (front ++ [last]) = pushName (rawPrefix front) last := by
  rw [← rawPrefix_push, pushPath, pushName]
  by_cases hempty : rawPrefix front = ""
  · simp [hempty]
  · have hend : endsWith (rawPrefix front) "/" = false := by
      cases front using reverseRecOn with
      | nil => rfl
      | append_singleton rest name =>
        obtain ⟨hne, hslash⟩ := hnames name (by simp)
        rw [← rawPrefix_push, pushPath]
        split <;> exact endsWith_append_of_not_hasChar hslash hne _
    simp [hempty, hend]

theorem splitChar_rawPrefix (hpath : path ≠ [])
    (hnames : ∀ name ∈ path, name ≠ "" ∧ hasChar '/' name = false) :
    splitChar '/' (rawPrefix path) = path := by
  induction path using reverseRecOn with
  | nil => exact absurd rfl hpath
  | append_singleton front last ih =>
    have hlast := (hnames last (by simp)).2
    rw [rawPrefix_concat fun name hname => hnames name (by simp [hname])]
    cases hfront : front with
    | nil =>
      have hempty : pushName (rawPrefix []) last = last := if_pos rfl
      rw [hempty, splitChar_of_not_hasChar hlast, nil_append]
    | cons first rest =>
      rw [← hfront]
      have hsplit := ih (by simp [hfront]) fun name hname => hnames name (by simp [hname])
      have hne : rawPrefix front ≠ "" := by
        intro hempty
        rw [hempty, hfront] at hsplit
        have hfirst : first = "" := by
          have := congrArg head? hsplit
          simpa [splitChar, eq_comm] using this
        exact (hnames first (by simp [hfront])).1 hfirst
      rw [pushName, if_neg hne, String.append_assoc]
      have := splitChar_append_sep hlast (rawPrefix front)
      rw [hsplit] at this
      exact this

theorem hasChar_rawPrefix {c : Char} (hc : c ≠ '/')
    (hnames : ∀ name ∈ path, hasChar c name = false) : hasChar c (rawPrefix path) = false := by
  induction path using reverseRecOn with
  | nil => rfl
  | append_singleton front last ih =>
    have hlast := hnames last (by simp)
    have hfront := ih fun name hname => hnames name (by simp [hname])
    rw [← rawPrefix_push, pushPath]
    split
    · simp only [hasChar, String.toList_append, contains_append, Bool.or_eq_false_iff]
        at hlast hfront ⊢
      exact ⟨hfront, hlast⟩
    · simp only [hasChar, String.toList_append, contains_append, Bool.or_eq_false_iff]
        at hlast hfront ⊢
      exact ⟨⟨hfront, by simpa using hc⟩, hlast⟩

theorem foldl_pushName (hnames : ∀ name ∈ path, name ≠ "" ∧ hasChar '/' name = false) :
    path.foldl pushName "" = rawPrefix path := by
  induction path using reverseRecOn with
  | nil => rfl
  | append_singleton front last ih =>
    have hfront := fun name hname => hnames name (mem_append_left _ hname)
    rw [foldl_append, ih hfront, rawPrefix_concat hfront, foldl_cons, foldl_nil]

section
variable (hpath : path ≠ [])
  (hnames : ∀ name ∈ path, name ≠ "" ∧ hasChar '/' name = false ∧ hasChar '\\' name = false)
include hpath hnames

theorem entryName_eq : entryName path = rawPrefix path := by
  have hslash : hasChar '\\' (rawPrefix path.dropLast) = false :=
    hasChar_rawPrefix (by decide) fun name hname => (hnames name (mem_of_mem_dropLast hname)).2.2
  have hpush := @rawPrefix_concat path.dropLast (path.getLast?.getD "")
    fun name hname => ⟨(hnames name (mem_of_mem_dropLast hname)).1,
      (hnames name (mem_of_mem_dropLast hname)).2.1⟩
  rw [getLast?_eq_some_getLast hpath, getD_some, dropLast_append_getLast hpath] at hpush
  rw [hpush, entryName, ScanEnv.relativePath, pushName,
    replaceChar_of_not_hasChar hslash, getLast?_eq_some_getLast hpath,
    getD_some, replaceChar_of_not_hasChar (hnames _ (getLast_mem hpath)).2.2]

theorem namePath_entryName : namePath (entryName path) = path := by
  rw [entryName_eq hpath hnames, namePath]
  exact splitChar_rawPrefix hpath fun name hname => ⟨(hnames name hname).1, (hnames name hname).2.1⟩

end

/-- The name of an entry leads back to its path. -/
theorem IsTree.namePath_entryName (h : IsTree d) (hpath : path ≠ []) (hnode : (d.node path).isSome) :
    namePath (entryName path) = path :=
  Syncthing.namePath_entryName hpath (h.named path hnode)

end names

theorem IsTree.leads (h : IsTree d) (hnode : (d.node path).isSome) : Leads d path := by
  refine ⟨fun name hname => (h.named path hnode name hname).1, fun above hne habove hlt => ?_⟩
  obtain ⟨rest, rfl⟩ := habove
  induction rest using reverseRecOn with
  | nil => exact absurd (append_nil above).symm hlt
  | append_singleton front last ih =>
    have hdrop : (above ++ (front ++ [last])).dropLast = above ++ front := by
      rw [← append_assoc, dropLast_concat]
    obtain ⟨modified, len, hparent⟩ := h.parent _ hnode (by simp [hdrop, hne])
    rw [hdrop] at hparent
    by_cases hfront : front = []
    · rw [hfront, append_nil] at hparent
      exact ⟨modified, len, hparent⟩
    · exact ih (by simp [hparent]) (by simpa using hfront)

namespace ScanEnv

/-- A scan comes to every path that is not excluded, by way of the directories above it. -/
theorem visits_of_not_excluded (hleads : Leads d path) (hnode : d.node path = some node)
    (hnot : ¬ Excluded env d path) (habove : above <+: path) (hlt : above ≠ path) :
    env.Visits d above (rawPrefix above) path (entryName path) node := by
  obtain ⟨rest, rfl⟩ := habove
  induction rest generalizing above with
  | nil => exact absurd (append_nil above).symm hlt
  | cons last rest ih =>
    have hinitial : above ++ [last] <+: above ++ last :: rest := ⟨rest, by simp⟩
    have hlast := hleads.named last (by simp)
    have hskip : skippedName last = false := by
      by_contra hskip
      exact hnot (.inl ⟨last, by simp, by simpa using hskip⟩)
    have hmatch : ∀ child, d.node (above ++ [last]) = some child →
        env.matcher (relativePath (rawPrefix above) last) child.isDirectory = false := by
      intro child hchild
      by_contra hmatch
      rw [← entryName_concat] at hmatch
      exact hnot (.inr ⟨_, child, by simp, hinitial, hchild, by simpa using hmatch⟩)
    by_cases hrest : rest = []
    · subst hrest
      rw [entryName_concat]
      exact .entry hnode hlast hskip (hmatch node hnode)
    · obtain ⟨modified, len, hdir⟩ := hleads.above _ (by simp) hinitial
        (by simpa using Ne.symm hrest)
      have happend : above ++ last :: rest = above ++ [last] ++ rest := by simp
      refine .inside hdir hlast hskip (hmatch _ hdir) ?_
      rw [rawPrefix_push, happend]
      rw [happend] at hnode hnot hleads
      exact ih hleads hnode hnot (by simpa using hrest)

theorem listing_complete {files : List FileInfo} (htree : IsTree d)
    (h : env.listing d none = .ok files) (hpath : path ≠ []) (hnode : d.node path = some node)
    (hnot : ¬ Excluded env d path) : scannedEntry env.sha256 (entryName path) node ∈ files :=
  (mem_scanDirectory_depth_iff h).mpr ⟨path, entryName path, node,
    visits_of_not_excluded (htree.leads (by simp [hnode])) hnode hnot nil_prefix (Ne.symm hpath), rfl⟩

/-- The deletions and the changed entries of a full scan: none too many, none missing. -/
structure FullScan (env : ScanEnv) (d : Disk) (db : FolderFiles)
    (files deleted compared : List FileInfo) : Prop where
  listed : env.listing d none = .ok files
  gone : ∀ x ∈ deleted, ∃ old ∈ db.entries, Vanished env d old x ∧ ¬ Downloading d old.name
  vanished : ∀ old ∈ db.entries, old.isDeleted = false →
    d.pathExists (namePath old.name) = false → ¬ Downloading d old.name →
    ∃ x ∈ deleted, Vanished env d old x
  found : ∀ x ∈ compared, ∃ file ∈ files, Compared env db file x
  changed : ∀ file ∈ files, (∃ existing, db.find? file.name = some existing ∧
    existing.blockHashes = file.blockHashes) ∨ ∃ x ∈ compared, Compared env db file x

/-- A full scan stores the deletions and the changed entries, and fails only if a call does. -/
theorem ends_fullScan : Ends (env.scanFolderAt d none)
      (fun out t => ∃ files deleted compared, FullScan env d s.db files deleted compared ∧
        out = orderChanged none (deleted ++ compared) ∧ t.db = s.db.upsertAll out)
      (fun _ => env.Fails []) s := by
  unfold scanFolderAt scanDeletions getFolderFiles
  simp only [ends_ite, ends_bind, ends_pure, ends_require, ends_get, any_none,
    Bool.false_eq_true, false_imp_iff, true_and, not_false_eq_true, true_imp_iff]
  refine ⟨fun _ _ => ⟨fun files hfiles => ⟨fun _ _ => ?_, fun _ => fails_of_database rfl⟩,
    fun _ => fails_of_scanDirectory⟩, fun _ herror => ?_⟩
  · refine (ends_collect_complete (E := fun t => t.db = s.db ∧ ∀ dir, env.Fails dir)
      (fun t : ScanState => t.db = s.db) _ (fun _ _ _ ht => ht ▸ ends_scanDeleted) rfl).imp
      (fun deleted t ht => ?_) fun _ h => h.2 []
    obtain ⟨htdb, hdeleted, hvanished⟩ := ht
    refine (ends_collect_complete (E := fun u => u.db = s.db ∧ ∀ dir, env.Fails dir)
      (fun u : ScanState => u.db = s.db) _ (fun _ _ _ hu => hu ▸ ends_compareFile) htdb).imp
      (fun compared u hu => ?_) fun _ h => h.2 []
    obtain ⟨hudb, hcompared, hchanged⟩ := hu
    refine ends_forM_updateFile.imp (fun _ v hv => ?_) fun _ h => h.1 []
    refine ⟨files, deleted, compared, ⟨hfiles, hdeleted, ?_, hcompared, hchanged⟩, rfl, hudb ▸ hv⟩
    intro old hold hlive hgone hdown
    rcases hvanished old hold with hnone | ⟨x, hx, hvan⟩
    · exact absurd (hnone hlive hgone) hdown
    · exact ⟨x, hx, hvan.1⟩
  · -- the folder itself is a directory
    cases herror

end ScanEnv

/-- A live record of what is at a path. -/
def Describes (sha256 : Bytes → Bytes) (r : FileInfo) : DiskNode → Prop
  | .file content _ => r.isDeleted = false ∧ r.fileType = .file ∧
      r.blockHashes = (contentBlocks sha256 content).map (·.hash)
  | .dir .. => r.isDeleted = false ∧ r.fileType = .directory
  | .symlink target .. => r.isDeleted = false ∧ r.fileType = .symlink ∧
      r.symlinkTarget = some target

/-- Everything on disk that is not excluded has a live record that describes it, and no record
without a file is live, unless the file is being downloaded. -/
def FaithfulTo (env : ScanEnv) (d : Disk) (db : FolderFiles) : Prop :=
  (∀ path node, path ≠ [] → d.node path = some node → ¬ Excluded env d path →
    ∃ r, db.find? (entryName path) = some r ∧ Describes env.sha256 r node) ∧
  ∀ r ∈ db.entries, d.node (namePath r.name) = none → ¬ Downloading d r.name → r.isDeleted = true

/-- A record with the block hashes of what is on disk under its name describes it, and a dangling
link is not taken for a deleted file. -/
def Recognised (env : ScanEnv) (d : Disk) (db : FolderFiles) : Prop :=
  ∀ path node, path ≠ [] → d.node path = some node → ¬ Excluded env d path →
    ∀ r, db.find? (entryName path) = some r → r.blockHashes = nodeHashes env.sha256 node →
      Describes env.sha256 r node ∧ (d.pathExists path = true ∨ Downloading d (entryName path))

theorem Describes.live {sha256 : Bytes → Bytes} (h : Describes sha256 r node) :
    r.isDeleted = false := by
  cases node with
  | file | dir | symlink => exact h.1

theorem describes_of_compared {name : String} {x : FileInfo}
    (h : Compared env db (scannedEntry env.sha256 name node) x) :
    x.name = name ∧ Describes env.sha256 (clearDeletedBlocks x) node := by
  obtain ⟨version, sequence, base, rfl⟩ := h.eq_with
  cases node with
  | file | symlink => exact ⟨rfl, rfl, rfl, rfl⟩
  | dir => exact ⟨rfl, rfl, rfl⟩

/-- What is not the target of a rename keeps its place behind what was before it. -/
theorem detectAndReorderRenames_append (deleted compared : List FileInfo) :
    ∃ front back, detectAndReorderRenames (deleted ++ compared) = front ++ back ∧
      (∀ x ∈ back, x ∈ compared) ∧ ∀ x ∈ compared, x.blocks = [] → x ∈ back := by
  rw [detectAndReorderRenames_eq_filter, filter_append _ _ (p := (!isRenamed _ ·)),
    ← append_assoc]
  refine ⟨_, _, rfl, fun x hx => (List.mem_filter.mp hx).1, fun x hx hblocks => ?_⟩
  refine List.mem_filter.mpr ⟨hx, ?_⟩
  simp [isRenamed, hasSameBlocks_iff, FileInfo.blockHashes, hblocks]

theorem find?_reverse_append {α : Type} {back : List α} {p : α → Bool} (front : List α)
    (h : ∃ x ∈ back, p x = true) :
    ∃ x ∈ back, p x = true ∧ (front ++ back).reverse.find? p = some x := by
  obtain ⟨x, hx, hp⟩ := h
  have hsome : (back.reverse.find? p).isSome := find?_isSome.mpr ⟨x, by simpa using hx, hp⟩
  obtain ⟨y, hy⟩ := Option.isSome_iff_exists.mp hsome
  refine ⟨y, by simpa using mem_of_find?_eq_some hy, find?_some hy, ?_⟩
  rw [reverse_append, find?_append, hy, some_or]

namespace ScanEnv.FullScan

variable {files deleted compared : List FileInfo} {name : String} {x : FileInfo}

/-- What a full scan stores under a name. -/
def stored (deleted compared : List FileInfo) (name : String) : Option FileInfo :=
  (orderChanged none (deleted ++ compared)).reverse.find? fun f => f.name = name

theorem stored_eq_map : stored deleted compared name =
    ((detectAndReorderRenames (deleted ++ compared)).reverse.find? fun f => f.name = name).map
      clearDeletedBlocks := by
  simp only [stored, orderChanged, isNone_none, if_true, ← map_reverse, find?_map,
    Function.comp_def, name_clearDeletedBlocks]

theorem mem_of_stored (h : stored deleted compared name = some r) :
    ∃ x ∈ deleted ++ compared, x.name = name ∧ clearDeletedBlocks x = r := by
  rw [stored_eq_map, map_eq_some_iff] at h
  obtain ⟨x, hx, rfl⟩ := h
  exact ⟨x, mem_detectAndReorderRenames.mp (by simpa using mem_of_find?_eq_some hx),
    by simpa using find?_some hx, rfl⟩

theorem stored_eq_none (h : ∀ x ∈ deleted ++ compared, x.name ≠ name) :
    stored deleted compared name = none := by
  cases hstored : stored deleted compared name with
  | none => rfl
  | some r =>
    obtain ⟨x, hx, hname, -⟩ := mem_of_stored hstored
    exact absurd hname (h x hx)

theorem exists_stored (hx : x ∈ deleted ++ compared) (hname : x.name = name) :
    ∃ r, stored deleted compared name = some r := by
  rw [stored_eq_map, ← isSome_iff_exists, isSome_map, find?_isSome]
  exact ⟨x, by simpa using mem_detectAndReorderRenames.mpr (List.mem_append.mpr
    (List.mem_append.mp hx)), by simpa using hname⟩

/-- An entry that was compared comes after a deletion of its name. -/
theorem stored_of_compared (hx : x ∈ compared) (hname : x.name = name)
    (h : (∀ y ∈ deleted, y.name ≠ name) ∨ ∀ y ∈ compared, y.name = name → y.blocks = []) :
    ∃ y ∈ compared, y.name = name ∧ stored deleted compared name = some (clearDeletedBlocks y) := by
  rcases h with h | h
  · obtain ⟨r, hr⟩ := exists_stored (mem_append_right deleted hx) hname
    obtain ⟨y, hy, hyname, rfl⟩ := mem_of_stored hr
    rcases List.mem_append.mp hy with hy | hy
    · exact absurd hyname (h y hy)
    · exact ⟨y, hy, hyname, hr⟩
  · obtain ⟨front, back, heq, hback, hblocks⟩ := detectAndReorderRenames_append deleted compared
    obtain ⟨y, hy, hyname, hfind⟩ := find?_reverse_append
      (p := fun f : FileInfo => f.name = name) front ⟨x, hblocks x hx (h x hx hname), by simpa using hname⟩
    refine ⟨y, hback y hy, by simpa using hyname, ?_⟩
    rw [stored_eq_map, heq, hfind, map_some]

section path
variable (h : FullScan env d db files deleted compared) (htree : IsTree d)
  (hpath : path ≠ []) (hnode : d.node path = some node) {x : FileInfo}
include h htree hpath hnode

/-- A deletion of a name that is on disk: there is a dangling link. -/
theorem of_deleted (hx : x ∈ deleted) (hname : x.name = entryName path) :
    ∃ old, db.find? (entryName path) = some old ∧ old.isDeleted = false ∧
      d.pathExists path = false ∧ ¬ Downloading d (entryName path) := by
  obtain ⟨old, hold, ⟨hlive, hgone, sequence, rfl⟩, hdown⟩ := h.gone x hx
  have holdname : old.name = entryName path := hname
  rw [holdname] at hgone hdown
  rw [htree.namePath_entryName hpath (by simp [hnode])] at hgone
  exact ⟨old, holdname ▸ find?_key hold, hlive, hgone, hdown⟩

theorem of_compared (hx : x ∈ compared) (hname : x.name = entryName path) :
    Compared env db (scannedEntry env.sha256 (entryName path) node) x := by
  obtain ⟨file, hfile, hc⟩ := h.found x hx
  have hlisted : env.scanDirectory d (d.depth + 1) [] (rawPrefix []) = .ok files := h.listed
  obtain ⟨other, node', hne, hnode', rfl⟩ := scanDirectory_entry hlisted hfile
  rw [Disk.nodeAt, if_neg hne] at hnode'
  have hsame : other = path := by
    rw [← htree.namePath_entryName hne (by simp [hnode']),
      ← htree.namePath_entryName hpath (by simp [hnode]), ← hname, (describes_of_compared hc).1]
  subst hsame
  rw [hnode] at hnode'
  cases hnode'
  exact hc

/-- The last word on a changed path is what was found there. -/
theorem stored_of_changed (hx : x ∈ compared) (hname : x.name = entryName path) :
    ∃ r, stored deleted compared (entryName path) = some r ∧ Describes env.sha256 r node := by
  have hlast : (∀ y ∈ deleted, y.name ≠ entryName path) ∨
      ∀ y ∈ compared, y.name = entryName path → y.blocks = [] := by
    by_cases hdeleted : ∃ y ∈ deleted, y.name = entryName path
    · right
      obtain ⟨y, hy, hyname⟩ := hdeleted
      obtain ⟨-, -, -, hgone, -⟩ := h.of_deleted htree hpath hnode hy hyname
      intro z hz hzname
      have hc := h.of_compared htree hpath hnode hz hzname
      rw [Disk.pathExists, Disk.nodeAt, if_neg hpath, hnode] at hgone
      cases node with
      | file | dir => cases hgone
      | symlink target modified view =>
        obtain ⟨version, sequence, base, rfl⟩ := hc.eq_with
        rfl
    · left
      exact fun y hy hyname => hdeleted ⟨y, hy, hyname⟩
  obtain ⟨y, hy, hyname, hstored⟩ := stored_of_compared hx hname hlast
  exact ⟨_, hstored, (describes_of_compared (h.of_compared htree hpath hnode hy hyname)).2⟩

end path

/-- A record without a file is marked deleted, unless the file is being downloaded. -/
theorem deleted_of_missing (h : FullScan env d db files deleted compared) (htree : IsTree d)
    (hr : (stored deleted compared r.name <|> db.find? r.name) = some r)
    (hmissing : d.node (namePath r.name) = none) (hdown : ¬ Downloading d r.name) :
    r.isDeleted = true := by
  have hgone : d.pathExists (namePath r.name) = false := by
    rw [Disk.pathExists, Disk.nodeAt, if_neg (namePath_ne_nil _), hmissing]
  cases hstored : stored deleted compared r.name with
  | some x =>
    rw [hstored] at hr
    cases hr
    obtain ⟨x, hx, hname, hclear⟩ := mem_of_stored hstored
    rcases List.mem_append.mp hx with hx | hx
    · obtain ⟨old, -, ⟨-, -, sequence, rfl⟩, -⟩ := h.gone x hx
      rw [← hclear]
      rfl
    · obtain ⟨file, hfile, hc⟩ := h.found x hx
      have hlisted : env.scanDirectory d (d.depth + 1) [] (rawPrefix []) = .ok files := h.listed
      obtain ⟨path, node, hne, hnode, rfl⟩ := scanDirectory_entry hlisted hfile
      rw [Disk.nodeAt, if_neg hne] at hnode
      rw [← hname, (describes_of_compared hc).1,
        htree.namePath_entryName hne (by simp [hnode]), hnode] at hmissing
      cases hmissing
  | none =>
    rw [hstored] at hr
    by_contra hlive
    have hmem := (find?_eq_some_iff.mp hr).1
    obtain ⟨x, hx, -, -, sequence, rfl⟩ := h.vanished r hmem (by simpa using hlive) hgone hdown
    obtain ⟨y, hy⟩ : ∃ y, stored deleted compared r.name = some y :=
      exists_stored (mem_append_left compared hx) rfl
    rw [hstored] at hy
    cases hy

end ScanEnv.FullScan

open ScanEnv in
/-- A full scan leaves faithful records exactly if every record with the block hashes of what is on
disk described it already. -/
theorem full_scan_faithful_iff {out : List FileInfo} (htree : IsTree d)
    (hok : env.scanFolderAt d none s = .ok out t) :
    FaithfulTo env d t.db ↔ Recognised env d s.db := by
  obtain ⟨files, deleted, compared, h, rfl, htdb⟩ := ends_fullScan.of_ok hok
  have hfind : ∀ name, t.db.find? name =
      (FullScan.stored deleted compared name <|> s.db.find? name) := by
    intro name
    rw [htdb, find?_upsertAll]
    rfl
  constructor
  · rintro ⟨hfaithful, -⟩ path node hpath hnode hnot r hr hhashes
    obtain ⟨r', hr', hdescribes⟩ := hfaithful path node hpath hnode hnot
    have hcompared : ∀ x ∈ compared, x.name ≠ entryName path := by
      intro x hx hname
      have hc := h.of_compared htree hpath hnode hx hname
      simp only [Compared, name_scannedEntry, hr, blockHashes_scannedEntry] at hc
      exact hc.1 hhashes
    have hdeleted : ∀ x ∈ deleted, x.name ≠ entryName path := by
      intro x hx hname
      obtain ⟨y, hy⟩ := FullScan.exists_stored (mem_append_left compared hx) hname
      obtain ⟨z, hz, hzname, rfl⟩ := FullScan.mem_of_stored hy
      rcases List.mem_append.mp hz with hz | hz
      · obtain ⟨old, -, ⟨-, -, sequence, rfl⟩, -⟩ := h.gone z hz
        rw [hfind, hy] at hr'
        cases hr'
        cases hdescribes.live
      · exact hcompared z hz hzname
    have hnone := FullScan.stored_eq_none (List.forall_mem_append.mpr ⟨hdeleted, hcompared⟩)
    rw [hfind, hnone] at hr'
    obtain rfl := Option.some.inj (hr.symm.trans hr')
    refine ⟨hdescribes, ?_⟩
    by_contra hgone
    rw [not_or, Bool.not_eq_true] at hgone
    have hname : r.name = entryName path := key_of_find? hr
    obtain ⟨x, hx, -, -, sequence, rfl⟩ := h.vanished r (find?_eq_some_iff.mp hr).1
      hdescribes.live (by rw [hname, htree.namePath_entryName hpath (by simp [hnode])]; exact hgone.1)
      (hname ▸ hgone.2)
    exact hdeleted _ hx hname
  · intro hrecognised
    refine ⟨fun path node hpath hnode hnot => ?_, fun r hr hmissing hdown => ?_⟩
    · rcases h.changed _ (listing_complete htree h.listed hpath hnode hnot) with
        ⟨r, hr, hhashes⟩ | ⟨x, hx, hc⟩
      · rw [name_scannedEntry] at hr
        rw [blockHashes_scannedEntry] at hhashes
        obtain ⟨hdescribes, hthere⟩ := hrecognised path node hpath hnode hnot r hr hhashes
        refine ⟨r, ?_, hdescribes⟩
        rw [hfind, FullScan.stored_eq_none (List.forall_mem_append.mpr
          ⟨fun x hx hname => ?_, fun x hx hname => ?_⟩)]
        · exact hr
        · obtain ⟨-, -, -, hgone, hdown⟩ := h.of_deleted htree hpath hnode hx hname
          rcases hthere with hthere | hthere
          · rw [hthere] at hgone
            cases hgone
          · exact hdown hthere
        · have hc := h.of_compared htree hpath hnode hx hname
          simp only [Compared, name_scannedEntry, hr, blockHashes_scannedEntry] at hc
          exact hc.1 hhashes
      · obtain ⟨r, hr, hdescribes⟩ := h.stored_of_changed htree hpath hnode hx
          (describes_of_compared hc).1
        exact ⟨r, by rw [hfind, hr]; rfl, hdescribes⟩
    · refine h.deleted_of_missing htree ?_ hmissing hdown
      rw [← hfind]
      exact find?_key hr

/-- What is at `x` and nothing else. -/
def onlyX (node : DiskNode) : Disk := FileStore.empty.set ["x"] node

/-- The directory `a` with the directory `b` and the file `c` in it, and the file `d` in `b`. -/
def nestedDisk : Disk :=
  (((FileStore.empty.set ["a"] (.dir (0, 0) 0)).set ["a", "b"] (.dir (0, 0) 0)).set ["a", "c"]
    (.file [7] (0, 0))).set ["a", "b", "d"] (.file [8] (0, 0))

theorem node_nestedDisk (h : nestedDisk.node path = some node) :
    (path = ["a"] ∧ node = .dir (0, 0) 0) ∨ (path = ["a", "b"] ∧ node = .dir (0, 0) 0) ∨
      (path = ["a", "c"] ∧ node = .file [7] (0, 0)) ∨
      path = ["a", "b", "d"] ∧ node = .file [8] (0, 0) := by
  simp only [nestedDisk, FileStore.node_set] at h
  split at h
  next hd => exact .inr (.inr (.inr ⟨hd, (Option.some.inj h).symm⟩))
  · split at h
    next hc => exact .inr (.inr (.inl ⟨hc, (Option.some.inj h).symm⟩))
    · split at h
      next hb => exact .inr (.inl ⟨hb, (Option.some.inj h).symm⟩)
      · split at h
        next ha => exact .inl ⟨ha, (Option.some.inj h).symm⟩
        · cases h

theorem isTree_nestedDisk : IsTree nestedDisk := by
  constructor <;> intro path hpath <;> obtain ⟨node, hnode⟩ := isSome_iff_exists.mp hpath <;>
    rcases node_nestedDisk hnode with ⟨rfl, -⟩ | ⟨rfl, -⟩ | ⟨rfl, -⟩ | ⟨rfl, -⟩
  · simp
  · exact fun _ => ⟨_, _, rfl⟩
  · exact fun _ => ⟨_, _, rfl⟩
  · exact fun _ => ⟨_, _, rfl⟩
  all_goals decide

/-- One file as it is, the other one as it was, and one that is gone. -/
def earlierRecords : FolderFiles :=
  ((KeyedList.empty.upsert (oneByte "a/b/d" 8)).upsert (oneByte "a/c" 1)).upsert (oneByte "z" 2)

theorem full_scan_faithful_nested :
    ∃ out t, (calmScan 1).scanFolderAt nestedDisk none ⟨earlierRecords, 3⟩ = .ok out t ∧
      out.map (·.name) = ["z", "a/c", "a/b", "a"] ∧ FaithfulTo (calmScan 1) nestedDisk t.db := by
  obtain ⟨out, t, h, hnames⟩ : ∃ out t, (calmScan 1).scanFolderAt nestedDisk none
      ⟨earlierRecords, 3⟩ = .ok out t ∧ out.map (·.name) = ["z", "a/c", "a/b", "a"] :=
    ⟨_, _, rfl, by decide⟩
  refine ⟨out, t, h, hnames, (full_scan_faithful_iff isTree_nestedDisk h).mpr ?_⟩
  intro path node _ hnode _ r hr hhashes
  rcases node_nestedDisk hnode with ⟨rfl, rfl⟩ | ⟨rfl, rfl⟩ | ⟨rfl, rfl⟩ | ⟨rfl, rfl⟩
  · cases hr
  · cases hr
  · cases hr
    exact absurd hhashes (by decide)
  · cases hr
    exact ⟨⟨rfl, rfl, by decide⟩, .inl (by decide)⟩

/-- A directory is made again after its deletion: it stays deleted. A recorded link dangles: it is
taken for a deleted file. -/
theorem full_scan_unfaithful : let gone : FileInfo :=
      { FileInfo.new "x" with fileType := .directory, deleted := some true }
    let link : FileInfo := { FileInfo.new "x" with fileType := .symlink, symlinkTarget := some "y" }
    let scan := fun node (r : FileInfo) =>
      (calmScan 1).scanFolderAt (onlyX node) none ⟨KeyedList.empty.upsert r, 0⟩
    (∃ t, scan (.dir (0, 0) 4096) gone = .ok [] t ∧ t.db.find? "x" = some gone) ∧
    ∃ out t r, scan (.symlink "y" (0, 0) .dangling) link = .ok out t ∧
      t.db.find? "x" = some r ∧ r.isDeleted = true := by
  refine ⟨⟨_, rfl, by decide⟩, ⟨_, _, _, rfl, rfl, by decide⟩⟩

section pruning
variable {start name : String}

theorem ScanEnv.Visits.dir_le (h : env.Visits d dir start path name node) : dir <+: path := by
  induction h with
  | entry => exact prefix_append _ _
  | inside _ _ _ _ _ ih => exact (prefix_append _ _).trans ih

/-- On its way to a path the walk has found none of its names skipped and none of its prefixes
matched. -/
theorem ScanEnv.Visits.passes (h : env.Visits d dir start path name node)
    (hstart : start = rawPrefix dir) :
    (∀ name ∈ path.drop dir.length, skippedName name = false) ∧
      ∀ above child, dir <+: above → above ≠ dir → above <+: path → d.node above = some child →
        env.matcher (entryName above) child.isDirectory = false := by
  subst hstart
  -- the next prefix is the directory with one name more
  have hnext {dir above : List String} {last rest} (hdir : dir <+: above) (hne : above ≠ dir)
      (habove : above <+: dir ++ [last] ++ rest) : dir ++ [last] <+: above := by
    obtain ⟨_ | ⟨x, more⟩, rfl⟩ := hdir
    · exact absurd (append_nil dir) hne
    · obtain rfl : x = last := by
        have := prefix_append_right_inj dir |>.mp (append_assoc dir [last] rest ▸ habove)
        exact (cons_prefix_cons.mp this).1
      exact ⟨more, by simp⟩
  generalize hstart : rawPrefix dir = start at h
  induction h with
  | @entry dir start last node hnode _ hskip hmatch =>
    subst hstart
    refine ⟨by simpa using hskip, fun above child hdir hne habove hchild => ?_⟩
    obtain rfl := (@hnext _ _ last [] hdir hne (by simpa using habove)).eq_of_length_le
      habove.length_le
    rw [entryName_concat]
    rwa [Option.some.inj (hchild.symm.trans hnode)]
  | @inside dir start last path name node modified len hnode _ hskip hmatch h ih =>
    subst hstart
    obtain ⟨hnames, habove⟩ := ih (rawPrefix_push dir last).symm
    obtain ⟨rest, rfl⟩ := h.dir_le
    refine ⟨?_, fun above child hdir hne hpath hchild => ?_⟩
    · simpa [hskip] using hnames
    · by_cases heq : above = dir ++ [last]
      · subst heq
        rw [entryName_concat]
        rwa [Option.some.inj (hchild.symm.trans hnode)]
      · exact habove above child (hnext hdir hne hpath) heq hpath hchild

theorem ScanEnv.visits_iff_not_excluded (hleads : Leads d path) (hpath : path ≠ [])
    (hnode : d.node path = some node) :
    env.Visits d [] "" path (entryName path) node ↔ ¬ Excluded env d path := by
  constructor
  · rintro h (⟨name, hname, hskip⟩ | ⟨above, child, hne, habove, hchild, hmatch⟩)
    · simp [(h.passes rfl).1 name hname] at hskip
    · simp [(h.passes rfl).2 above child nil_prefix hne habove hchild] at hmatch
  · exact fun hnot => visits_of_not_excluded hleads hnode hnot nil_prefix hpath.symm

/-- The directories whose names `is_ignored_with_ancestors` tests. -/
theorem mem_above_iff {segments : List String} :
    name ∈ (segments.dropLast.scanl pushName "").drop 1 ↔ ∃ above, above ≠ [] ∧
      above <+: segments ∧ above ≠ segments ∧ above.foldl pushName "" = name := by
  simp only [mem_iff_getElem?, getElem?_drop, getElem?_scanl, Option.ite_none_right_eq_some,
    Option.some.injEq, length_dropLast]
  constructor
  · rintro ⟨i, hi, rfl⟩
    have htake : segments.dropLast.take (1 + i) = segments.take (1 + i) := by
      rw [dropLast_eq_take, take_take, min_eq_left hi]
    have hlength : (segments.take (1 + i)).length = 1 + i := length_take_of_le (by omega)
    refine ⟨segments.take (1 + i), fun h => ?_, take_prefix _ _, fun h => ?_, by rw [htake]⟩
    · rw [h, length_nil] at hlength
      omega
    · rw [h] at hlength
      omega
  · rintro ⟨above, hne, habove, hlt, rfl⟩
    have hlength := habove.length_le
    have hpos := length_pos_iff.mpr hne
    have hless : above.length ≠ segments.length := fun h => hlt (habove.eq_of_length h)
    refine ⟨above.length - 1, by omega, ?_⟩
    rw [dropLast_eq_take, take_take, min_eq_left (by omega), Nat.add_sub_cancel' hpos,
      ← prefix_iff_eq_take.mp habove]

section ancestors
variable (hleads : Leads d path) (hpath : path ≠ []) (hnode : d.node path = some node)
  (hnames : ∀ name ∈ path, hasChar '/' name = false ∧ hasChar '\\' name = false)
include hleads hpath hnode hnames

/-- The prefixes that `is_ignored_with_ancestors` builds are the names the walk gives to the
directories. -/
theorem isIgnoredWithAncestors_iff :
    isIgnoredWithAncestors env.matcher (entryName path) node.isDirectory = false ↔
      ∀ above child, above ≠ [] → above <+: path → d.node above = some child →
        env.matcher (entryName above) child.isDirectory = false := by
  have hnames := fun name hname => And.intro (hleads.named name hname) (hnames name hname)
  have hslash : hasChar '\\' (entryName path) = false := by
    rw [entryName_eq hpath hnames]
    exact hasChar_rawPrefix (by decide) fun name hname => (hnames name hname).2.2
  have hsplit := namePath_entryName hpath hnames
  have habove : ∀ above, above ≠ [] → above <+: path → above.foldl pushName "" = entryName above := by
    intro above hne hle
    have hnames := fun name hname => hnames name (hle.subset hname)
    rw [entryName_eq hne hnames, foldl_pushName fun name hname =>
      ⟨(hnames name hname).1, (hnames name hname).2.1⟩]
  rw [namePath] at hsplit
  simp only [isIgnoredWithAncestors, replaceChar_of_not_hasChar hslash, hsplit,
    Bool.or_eq_false_iff, List.any_eq_false, mem_above_iff]
  constructor
  · rintro ⟨hself, hdirs⟩ above child hne hle hchild
    by_cases heq : above = path
    · subst heq
      rwa [Option.some.inj (hchild.symm.trans hnode)]
    · obtain ⟨modified, len, hdir⟩ := hleads.above above hne hle heq
      rw [Option.some.inj (hchild.symm.trans hdir)]
      exact Bool.eq_false_of_not_eq_true (hdirs _ ⟨above, hne, hle, heq, habove above hne hle⟩)
  · intro h
    refine ⟨h path node hpath prefix_rfl hnode, ?_⟩
    rintro _ ⟨above, hne, hle, heq, rfl⟩
    obtain ⟨modified, len, hdir⟩ := hleads.above above hne hle heq
    rw [habove above hne hle]
    exact Bool.not_eq_true _ ▸ h above _ hne hle hdir

theorem passes_iff_not_excluded : (∀ name ∈ path, skippedName name = false) ∧
      isIgnoredWithAncestors env.matcher (entryName path) node.isDirectory = false ↔
    ¬ Excluded env d path := by
  rw [isIgnoredWithAncestors_iff hleads hpath hnode hnames, Excluded]
  simp only [not_or, not_exists, not_and, Bool.not_eq_true]

end ancestors

/-- The rule `b/`. -/
def directoryRule : ScanEnv := { calmScan 1 with
  matcher := fun name isDir => isDir && (namePath name).getLast? == some "b" }

/-- A full scan of a tree lists what is there under names it does not skip, unless the name or a
directory above it matches an ignore rule. -/
theorem full_scan_lists_tree {files : List FileInfo}
    (htree : ∀ path, (d.node path).isSome → Leads d path) (h : env.listing d none = .ok files) :
    file ∈ files ↔ ∃ path node, path ≠ [] ∧ d.node path = some node ∧ ¬ Excluded env d path ∧
      file = scannedEntry env.sha256 (entryName path) node := by
  have hvisits {path node} (hpath : path ≠ []) (hnode : d.node path = some node) :=
    @ScanEnv.visits_iff_not_excluded env d path node (htree path (by simp [hnode])) hpath hnode
  rw [ScanEnv.mem_scanDirectory_depth_iff h]
  constructor
  · rintro ⟨path, name, node, hvisit, rfl⟩
    obtain rfl := hvisit.name_eq rfl
    exact ⟨path, node, hvisit.ne_nil, hvisit.node_eq,
      (hvisits hvisit.ne_nil hvisit.node_eq).mp hvisit, rfl⟩
  · rintro ⟨path, node, hne, hnode, hnot, rfl⟩
    exact ⟨path, entryName path, node, (hvisits hne hnode).mpr hnot, rfl⟩

theorem full_scan_lists_tree_nested :
    ∃ files, directoryRule.listing nestedDisk none = .ok files ∧
      scannedEntry id "a/c" (.file [7] (0, 0)) ∈ files ∧
      "a/b/d" ∉ files.map (·.name) := by
  have hvisits : directoryRule.Visits nestedDisk [] "" ["a", "c"] "a/c" (.file [7] (0, 0)) :=
    .inside rfl (by decide) (by decide) rfl (.entry rfl (by decide) (by decide) rfl)
  have hleads := fun path => @IsTree.leads nestedDisk path isTree_nestedDisk
  exact ⟨_, rfl, (full_scan_lists_tree hleads rfl).mpr ⟨["a", "c"], _, by simp, rfl,
    (ScanEnv.visits_iff_not_excluded (hleads _ rfl) (by simp) rfl).mp hvisits, rfl⟩, by decide⟩

end pruning

end Syncthing
