import Syncthing.Sync.FaithfulScans

/-! What a second full scan finds to do after the first, on any disk and with any records.
The database is taken as a map (see `DatabaseRefinement`). -/
namespace Syncthing

open Program ScanEnv List KeyedList

variable {env env' : ScanEnv} {d : Disk} {db : FolderFiles} {s t : ScanState} {x r : FileInfo}
  {dir path : List String} {start name : String} {node : DiskNode}
  {files deleted compared : List FileInfo}

/-- Another full scan, whichever of its calls fail, reports nothing and leaves the records and the
sequence number alone. -/
def Quiescent (env : ScanEnv) (d : Disk) (s : ScanState) : Prop :=
  ∀ fault, Ends (ScanEnv.scanFolderAt { env with fault } d none)
    (fun out t => out = [] ∧ t = s) (fun t => t = s) s

/-- A scan has nothing to add to the records and nothing to mark as deleted. -/
structure Settled (env : ScanEnv) (d : Disk) (db : FolderFiles) : Prop where
  missing : ∀ r ∈ db.entries, r.isDeleted = false → d.pathExists (namePath r.name) = false →
    Downloading d r.name
  recorded : ∀ path name node, env.Visits d [] "" path name node →
    ∃ r, db.find? name = some r ∧ r.blockHashes = nodeHashes env.sha256 node

/-- Everything a scan comes to under one name has the same block hashes, and the name leads to
something on disk or to a file being downloaded. Else the record has these hashes already and is
either marked deleted or has no blocks to lose. -/
def NamesLeadBack (env : ScanEnv) (d : Disk) (db : FolderFiles) : Prop :=
  ∀ path name node, env.Visits d [] "" path name node →
    (∀ path' node', env.Visits d [] "" path' name node' →
      nodeHashes env.sha256 node' = nodeHashes env.sha256 node) ∧
    (d.pathExists (namePath name) = true ∨ Downloading d name ∨
      ∃ old, db.find? name = some old ∧ old.blockHashes = nodeHashes env.sha256 node ∧
        (old.isDeleted = true ∨ nodeHashes env.sha256 node = []))

/-- Only the ignore rules of its environment decide where a scan comes to. -/
theorem ScanEnv.Visits.of_matcher (h : env.Visits d dir start path name node)
    (hm : env'.matcher = env.matcher) : env'.Visits d dir start path name node := by
  induction h with
  | entry hnode hlast hskip hmatch => exact .entry hnode hlast hskip (by rw [hm, hmatch])
  | inside hnode hlast hskip hmatch _ ih => exact .inside hnode hlast hskip (by rw [hm, hmatch]) ih

theorem Settled.of_fault (h : Settled env d db) (fault : ScanStep → Option IoError) :
    Settled { env with fault } d db where
  missing := h.missing
  recorded path name node hvisits := h.recorded path name node (hvisits.of_matcher rfl)

theorem ends_scanFolderAt_of_settled (h : Settled env d s.db) :
    Ends (env.scanFolderAt d none) (fun out t => out = [] ∧ t = s) (fun t => t = s) s := by
  unfold scanFolderAt scanDeletions getFolderFiles
  simp only [ends_ite, ends_bind, ends_pure, ends_require, ends_get, Option.any_none,
    Bool.false_eq_true, false_imp_iff, true_and, not_false_eq_true, true_imp_iff]
  refine ⟨fun _ _ => ⟨fun files hfiles => ⟨fun _ _ => ?_, fun _ _ => trivial⟩,
    fun _ _ => trivial⟩, fun _ _ => trivial⟩
  -- neither loop pushes anything or takes a sequence number
  have hdeletions : Ends (collect (env.scanDeleted d) s.db.entries)
      (fun out t => out = [] ∧ t = s) (fun t => t = s) s := by
    refine ends_collect _ (fun old hold pushed u hu => ?_) ⟨rfl, rfl⟩
    obtain ⟨rfl, rfl⟩ := hu
    unfold scanDeleted
    simp only [ends_ite, ends_bind, ends_pure, Bool.and_eq_true, Bool.not_eq_true']
    refine ⟨fun hgone => ⟨fun _ => ⟨rfl, trivial⟩, fun hdown => ?_⟩, fun _ => ⟨rfl, trivial⟩⟩
    exact absurd (h.missing old hold hgone.2 hgone.1) hdown
  refine hdeletions.imp (fun gone t ht => ?_) fun _ => id
  obtain ⟨rfl, rfl⟩ := ht
  have hcompare : Ends (collect env.compareFile files)
      (fun out u => out = [] ∧ u = t) (fun u => u = t) t := by
    refine ends_collect _ (fun file hfile pushed u hu => ?_) ⟨rfl, rfl⟩
    obtain ⟨rfl, rfl⟩ := hu
    obtain ⟨path, name, node, hvisits, rfl⟩ := (mem_scanDirectory_depth_iff hfiles).mp hfile
    obtain ⟨r, hr, hhashes⟩ := h.recorded path name node hvisits
    have hsame : hasFileChanged r (scannedEntry env.sha256 name node) = false := by
      rw [← Bool.not_eq_true, hasFileChanged_iff, not_not, blockHashes_scannedEntry, hhashes]
    unfold compareFile getFile
    simp only [ends_bind, ends_require, ends_get, ends_pure, name_scannedEntry, hr, hsame,
      Bool.false_eq_true, if_false]
    exact ⟨fun _ _ => ⟨rfl, trivial⟩, fun _ _ => trivial⟩
  refine hcompare.imp (fun changed u hu => ?_) fun _ => id
  obtain ⟨rfl, rfl⟩ := hu
  have hnothing : orderChanged none ([] ++ []) = [] := rfl
  rw [hnothing, List.forM]
  exact ends_pure ▸ ⟨rfl, rfl⟩

/-- A scan has nothing to do exactly if the records are settled. -/
theorem quiescent_iff_settled : Quiescent env d s ↔ Settled env d s.db := by
  constructor
  · intro hquiet
    -- look at the scan no call of which fails
    have hcalm : ¬ ScanEnv.Fails { env with fault := fun _ => none } [] :=
      not_fails_of_calm fun _ => rfl
    obtain ⟨out, t, hok, files, deleted, compared, hscan, hout, -⟩ :=
      ((@ends_fullScan { env with fault := fun _ => none } d s).imp (fun _ _ => id)
        fun _ => hcalm).exists_ok
    obtain ⟨rfl, rfl⟩ := (hquiet _).of_ok hok
    have hnone : ∀ x, x ∉ deleted ++ compared := by
      intro x hx
      have hmem := (@mem_orderChanged _ none _).mpr ⟨x, hx, rfl⟩
      rw [← hout] at hmem
      cases hmem
    refine ⟨fun r hr hlive hgone => ?_, fun path name node hvisits => ?_⟩
    · by_contra hdown
      obtain ⟨x, hx, -⟩ := hscan.vanished r hr hlive hgone hdown
      exact hnone x (mem_append_left _ hx)
    · have hfile := (mem_scanDirectory_depth_iff hscan.listed).mpr
        ⟨path, name, node, hvisits.of_matcher rfl, rfl⟩
      rcases hscan.changed _ hfile with ⟨r, hr, hhashes⟩ | ⟨x, hx, -⟩
      · exact ⟨r, by simpa using hr, by simpa using hhashes⟩
      · exact (hnone x (mem_append_right _ hx)).elim
  · intro hsettled fault
    exact ends_scanFolderAt_of_settled (hsettled.of_fault fault)

theorem blockHashes_of_compared (h : Compared env db (scannedEntry env.sha256 name node) x) :
    x.name = name ∧ (clearDeletedBlocks x).isDeleted = false ∧ x.blocks.map (·.hash) =
      nodeHashes env.sha256 node ∧ (clearDeletedBlocks x).blockHashes =
      nodeHashes env.sha256 node := by
  obtain ⟨version, sequence, base, rfl⟩ := h.eq_with
  cases node <;> exact ⟨rfl, rfl, rfl, rfl⟩

namespace ScanEnv.FullScan

variable (h : FullScan env d db files deleted compared)
include h

/-- A changed entry is something the scan came to. -/
theorem visits_of_compared (hx : x ∈ compared) : ∃ path node,
    env.Visits d [] "" path x.name node ∧ Compared env db (scannedEntry env.sha256 x.name node) x := by
  obtain ⟨file, hfile, hc⟩ := h.found x hx
  obtain ⟨path, name, node, hvisits, rfl⟩ := (mem_scanDirectory_depth_iff h.listed).mp hfile
  obtain rfl := (blockHashes_of_compared hc).1
  exact ⟨path, node, hvisits, hc⟩

theorem find?_of_deleted (hx : x ∈ deleted) : ∃ old, db.find? x.name = some old ∧
    old.isDeleted = false ∧ d.pathExists (namePath x.name) = false ∧ ¬ Downloading d x.name ∧
    (clearDeletedBlocks x).isDeleted = true ∧ (clearDeletedBlocks x).blockHashes = [] := by
  obtain ⟨old, hold, ⟨hlive, hgone, sequence, rfl⟩, hdown⟩ := h.gone x hx
  exact ⟨old, find?_key hold, hlive, hgone, hdown, rfl, rfl⟩

theorem changed_of_visits (hvisits : env.Visits d [] "" path name node) :
    (∃ old, db.find? name = some old ∧ old.blockHashes = nodeHashes env.sha256 node) ∨
      ∃ x ∈ compared, x.name = name ∧ Compared env db (scannedEntry env.sha256 name node) x := by
  have hfile := (mem_scanDirectory_depth_iff h.listed).mpr ⟨path, name, node, hvisits, rfl⟩
  rcases h.changed _ hfile with hsame | ⟨x, hx, hc⟩
  · exact .inl (by simpa using hsame)
  · exact .inr ⟨x, hx, (blockHashes_of_compared hc).1, hc⟩

/-- After a scan, the records are settled if the names lead back. -/
theorem settled_of_namesLeadBack (hlead : NamesLeadBack env d db) {db' : FolderFiles}
    (hfind : ∀ name, db'.find? name = (stored deleted compared name <|> db.find? name)) :
    Settled env d db' := by
  refine ⟨fun r hr hlive hgone => ?_, fun path name node hvisits => ?_⟩
  · have hr' := hfind r.name
    rw [find?_key hr] at hr'
    by_contra hdown
    cases hstored : stored deleted compared r.name with
    | none =>
      rw [hstored] at hr'
      have hmem := (find?_eq_some_iff.mp hr'.symm).1
      obtain ⟨x, hx, -, -, sequence, rfl⟩ := h.vanished r hmem hlive hgone hdown
      obtain ⟨y, hy⟩ : ∃ y, stored deleted compared r.name = some y :=
        exists_stored (mem_append_left compared hx) rfl
      rw [hstored] at hy
      cases hy
    | some y =>
      rw [hstored] at hr'
      cases hr'
      obtain ⟨x, hx, hname, rfl⟩ := mem_of_stored hstored
      rcases mem_append.mp hx with hx | hx
      · obtain ⟨-, -, -, -, -, hdeleted, -⟩ := h.find?_of_deleted hx
        rw [hdeleted] at hlive
        cases hlive
      · obtain ⟨path, node, hvisits, hc⟩ := h.visits_of_compared hx
        rw [name_clearDeletedBlocks] at hgone hdown
        rcases (hlead path x.name node hvisits).2 with hthere | hdown' | ⟨old, hold, hhashes, -⟩
        · rw [hthere] at hgone
          cases hgone
        · exact hdown hdown'
        · simp only [Compared, name_scannedEntry, hold, blockHashes_scannedEntry] at hc
          exact hc.1 hhashes
  · obtain ⟨hsame, hthere⟩ := hlead path name node hvisits
    cases hstored : stored deleted compared name with
    | none =>
      rcases h.changed_of_visits hvisits with ⟨old, hold, hhashes⟩ | ⟨x, hx, hname, -⟩
      · exact ⟨old, by rw [hfind, hstored, hold]; rfl, hhashes⟩
      · obtain ⟨y, hy⟩ := exists_stored (mem_append_right deleted hx) hname
        rw [hstored] at hy
        cases hy
    | some r =>
      refine ⟨r, by rw [hfind, hstored]; rfl, ?_⟩
      obtain ⟨x, hx, rfl, rfl⟩ := mem_of_stored hstored
      rcases mem_append.mp hx with hx | hx
      · obtain ⟨old, hold, hlive, hgone, hdown, -, hhashes⟩ := h.find?_of_deleted hx
        rcases hthere with hthere | hdown' | ⟨old', hold', -, hdeleted | hempty⟩
        · rw [hthere] at hgone
          cases hgone
        · exact absurd hdown' hdown
        · rw [hold] at hold'
          cases hold'
          rw [hlive] at hdeleted
          cases hdeleted
        · rw [hhashes, hempty]
      · obtain ⟨path', node', hvisits', hc⟩ := h.visits_of_compared hx
        rw [(blockHashes_of_compared hc).2.2.2, hsame path' node' hvisits']

/-- A scan that settles the records has found names that lead back. -/
theorem namesLeadBack_of_settled {db' : FolderFiles} (hsettled : Settled env d db')
    (hfind : ∀ name, db'.find? name = (stored deleted compared name <|> db.find? name)) :
    NamesLeadBack env d db := by
  intro path name node hvisits
  obtain ⟨r, hr, hhashes⟩ := hsettled.recorded path name node hvisits
  have hsame : ∀ path' node', env.Visits d [] "" path' name node' →
      nodeHashes env.sha256 node' = nodeHashes env.sha256 node := by
    intro path' node' hvisits'
    obtain ⟨r', hr', hhashes'⟩ := hsettled.recorded path' name node' hvisits'
    rw [hr] at hr'
    cases hr'
    rw [← hhashes', ← hhashes]
  refine ⟨hsame, ?_⟩
  by_contra hnot
  simp only [not_or, not_exists, not_and] at hnot
  obtain ⟨hgone, hdown, hold⟩ := hnot
  obtain ⟨hmem, hname⟩ := find?_eq_some_iff.mp hr
  -- the name leads nowhere, so its record is a deletion
  have hdeleted : r.isDeleted = true := by
    by_contra hlive
    refine hdown (hname ▸ hsettled.missing r hmem (by simpa using hlive) ?_)
    rw [hname]
    simpa using hgone
  have hr' := hfind name
  rw [hr] at hr'
  cases hstored : stored deleted compared name with
  | none =>
    rw [hstored] at hr'
    exact (hold r hr'.symm hhashes).1 hdeleted
  | some y =>
    rw [hstored] at hr'
    cases hr'
    obtain ⟨x, hx, rfl, rfl⟩ := mem_of_stored hstored
    rcases mem_append.mp hx with hx | hx
    · obtain ⟨old, hfound, -, -, -, -, hempty⟩ := h.find?_of_deleted hx
      rw [hempty] at hhashes
      rcases h.changed_of_visits hvisits with ⟨old', hold', hhashes'⟩ | ⟨y, hy, hyname, -⟩
      · exact (hold old' hold' hhashes').2 hhashes.symm
      · -- an entry without blocks is stored behind the deletion
        have hblocks : ∀ z ∈ compared, z.name = x.name → z.blocks = [] := by
          intro z hz hzname
          obtain ⟨path', node', hvisits', hc⟩ := h.visits_of_compared hz
          have hz' := (blockHashes_of_compared hc).2.2.1
          rw [hsame path' node' (hzname ▸ hvisits'), ← hhashes] at hz'
          exact map_eq_nil_iff.mp hz'
        obtain ⟨z, hz, -, hz'⟩ := stored_of_compared hy hyname (.inr hblocks)
        obtain ⟨_, _, -, hc⟩ := h.visits_of_compared hz
        rw [hstored] at hz'
        rw [Option.some.inj hz', (blockHashes_of_compared hc).2.1] at hdeleted
        cases hdeleted
    · obtain ⟨_, _, -, hc⟩ := h.visits_of_compared hx
      rw [(blockHashes_of_compared hc).2.1] at hdeleted
      cases hdeleted

end ScanEnv.FullScan

/-- After a full scan another one has nothing to do exactly if the names of what it came to lead
back. -/
theorem second_scan_quiescent_iff {out : List FileInfo}
    (hok : env.scanFolderAt d none s = .ok out t) : Quiescent env d t ↔ NamesLeadBack env d s.db := by
  obtain ⟨files, deleted, compared, h, rfl, htdb⟩ := ends_fullScan.of_ok hok
  have hfind : ∀ name, t.db.find? name =
      (FullScan.stored deleted compared name <|> s.db.find? name) := by
    intro name
    rw [htdb, find?_upsertAll]
    rfl
  rw [quiescent_iff_settled]
  exact ⟨fun hsettled => h.namesLeadBack_of_settled hsettled hfind,
    fun hlead => h.settled_of_namesLeadBack hlead hfind⟩

theorem second_scan_quiescent_nested :
    ∃ out t, (calmScan 1).scanFolderAt nestedDisk none ⟨earlierRecords, 3⟩ = .ok out t ∧
      Quiescent (calmScan 1) nestedDisk t := by
  obtain ⟨out, t, h⟩ : ∃ out t, (calmScan 1).scanFolderAt nestedDisk none ⟨earlierRecords, 3⟩ =
      .ok out t := ⟨_, _, rfl⟩
  refine ⟨out, t, h, (second_scan_quiescent_iff h).mpr fun path name node hvisits => ?_⟩
  have hhashes : ∀ {path name node}, (calmScan 1).Visits nestedDisk [] "" path name node →
      name ∈ ["a", "a/b", "a/c", "a/b/d"] ∧
        nodeHashes id node = if name = "a/c" then [[7]] else if name = "a/b/d" then [[8]] else [] := by
    intro path name node hvisits
    rw [hvisits.name_eq rfl]
    rcases node_nestedDisk hvisits.node_eq with ⟨rfl, rfl⟩ | ⟨rfl, rfl⟩ | ⟨rfl, rfl⟩ | ⟨rfl, rfl⟩ <;>
      decide
  refine ⟨fun path' node' hvisits' => ?_, .inl ?_⟩
  · exact (hhashes hvisits').2.trans (hhashes hvisits).2.symm
  · have hname := (hhashes hvisits).1
    simp only [mem_cons, not_mem_nil, or_false] at hname
    rcases hname with rfl | rfl | rfl | rfl <;> decide

/-- A dangling link is recorded and then taken for a deleted file. A file `a\b` is recorded as
`a/b`, where there is nothing. -/
theorem second_scan_reports_deletion : (∃ out t again u,
      (calmScan 1).scanFolderAt (onlyX (.symlink "y" (0, 0) .dangling)) none ⟨.empty, 0⟩ =
        .ok out t ∧
      (calmScan 1).scanFolderAt (onlyX (.symlink "y" (0, 0) .dangling)) none t = .ok again u ∧
      again.map (·.name) = ["x"] ∧ u.sequence = t.sequence + 1 ∧ u.db ≠ t.db) ∧
    ∃ out t again u,
      (calmScan 1).scanFolderAt (FileStore.empty.set ["a\\b"] (.file [7] (0, 0))) none
        ⟨.empty, 0⟩ = .ok out t ∧
      (calmScan 1).scanFolderAt (FileStore.empty.set ["a\\b"] (.file [7] (0, 0))) none t =
        .ok again u ∧
      again.map (·.name) = ["a/b"] ∧ u.sequence = t.sequence + 1 ∧ u.db ≠ t.db := by
  refine ⟨⟨_, _, _, _, rfl, rfl, ?_, ?_, ?_⟩, ⟨_, _, _, _, rfl, rfl, ?_, ?_, ?_⟩⟩
  all_goals decide

end Syncthing
