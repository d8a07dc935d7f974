import Syncthing.Sync.PullerFrame

/-! The entries of an archive determine what archiving does to them, and no directory is lost by it.
-/
namespace Syncthing

open FileStore List Disk

variable {d d' d'' : Disk} {p q path : List String} {content : Bytes} {now : Mtime}

namespace Disk

theorem createDirAll_ok_iff : (∃ d', d.createDirAll p now = .ok d') ↔
    ∀ q, q <+: p → (d.nodeAt q).isSome → d.isDir q = true := by
  have hany : (p.inits.any fun q => (d.nodeAt q).isSome && !d.isDir q) = false ↔
      ∀ q, q <+: p → (d.nodeAt q).isSome → d.isDir q = true := by
    simp only [any_eq_false, mem_inits, Bool.and_eq_true, Bool.not_eq_true', not_and,
      Bool.not_eq_false]
  unfold createDirAll
  split
  next h =>
    rw [← hany, h]
    simp
  next h =>
    rw [← hany]
    exact ⟨fun _ => by simpa using h, fun _ => ⟨_, rfl⟩⟩

/-- A directory is made where nothing is. -/
theorem isDir_of_made (hnode : d'.node p = (d.node p).or (some (.dir now 4096)))
    (hdir : (d.nodeAt p).isSome → d.isDir p = true) : d'.isDir p = true := by
  by_cases hp : p = []
  · simp [isDir, nodeAt, hp]
  · unfold isDir at hdir ⊢
    rw [nodeAt_eq hp, hnode]
    rw [nodeAt_eq hp] at hdir
    cases hn : d.node p with
    | none => rfl
    | some n =>
      rw [hn] at hdir
      exact hdir rfl

theorem isDir_createDirAll (h : d.createDirAll p now = .ok d') : d'.isDir p = true := by
  have hnode := node_createDirAll h (q := p)
  rw [if_pos prefix_rfl] at hnode
  exact isDir_of_made hnode (createDirAll_ok_iff.mp ⟨d', h⟩ p prefix_rfl)

theorem write_ok_iff : (∃ d', d.write p content now = .ok d') ↔
    d.isDir p.dropLast = true ∧ d.isDir p = false := by
  unfold write
  cases hparent : d.isDir p.dropLast with
  | false => simp
  | true =>
    unfold isDir
    cases hn : d.nodeAt p with
    | none => simp
    | some n =>
      cases n with
      | file => simp
      | dir => simp
      | symlink target modified view => cases view <;> simp

theorem isDir_congr (h : d'.nodeAt p = d.nodeAt q) : d'.isDir p = d.isDir q := by
  simp only [isDir, h]

theorem pathExists_congr (h : d'.nodeAt p = d.nodeAt q) : d'.pathExists p = d.pathExists q := by
  simp only [pathExists, h]

theorem pathExists_of_read? (h : d.read? p = some content) : d.pathExists p = true := by
  unfold read? at h
  unfold pathExists
  split at h <;> simp_all

end Disk

/-! ## Equal archives -/

/-- The entries of the two archives are the same. -/
def SameArchive (d d' : Disk) : Prop :=
  ∀ name, d'.node (stversionsDir ++ [name]) = d.node (stversionsDir ++ [name])

section sameArchive
variable {clock : Clock} {faults : ArchiveFaults} {name : String}

theorem SameArchive.node (h : SameArchive d d') (hq : q ≠ []) (hdir : q.dropLast = stversionsDir) :
    d'.node q = d.node q := by
  rw [← dropLast_append_getLast hq, hdir]
  exact h _

instance : Std.Antisymm laterVersion := ⟨by
  rintro ⟨a, b⟩ ⟨c, d⟩ h1 h2
  simp only [laterVersion] at h1 h2
  exact Prod.ext (by dsimp only; omega) (by dsimp only; omega)⟩

instance : IsTrans Mtime laterVersion := ⟨by
  intro a b c h1 h2
  simp only [laterVersion] at *
  omega⟩

instance : Std.Total laterVersion := ⟨by
  intro a b
  simp only [laterVersion]
  omega⟩

section
variable (h : SameArchive d d')
include h

/-- The listed times do not depend on the order in which a directory lists its entries. -/
theorem listVersionsFor_congr : listVersionsFor clock d' path = listVersionsFor clock d path := by
  have hmem : ∀ q, q ∈ d'.children stversionsDir ↔ q ∈ d.children stversionsDir := by
    intro q
    rw [mem_children, mem_children]
    refine and_congr_right fun hq => and_congr_right fun hdir => ?_
    rw [h.node hq hdir]
  have hperm : (d'.children stversionsDir).Perm (d.children stversionsDir) :=
    (perm_ext_iff_of_nodup nodup_children nodup_children).mpr hmem
  have htimes : (versionEntries d' path).map (versionTime clock d') =
      (versionEntries d' path).map (versionTime clock d) := by
    refine map_congr_left fun q hq => ?_
    obtain ⟨hne, hdir, -⟩ := mem_children.mp (mem_filter.mp hq).1
    unfold versionTime
    rw [nodeAt_eq hne, nodeAt_eq hne, h.node hne hdir]
  have hmap : ((versionEntries d' path).map (versionTime clock d')).Perm
      ((versionEntries d path).map (versionTime clock d)) := by
    rw [htimes]
    exact (hperm.filter _).map _
  refine List.Perm.eq_of_pairwise' (pairwise_insertionSort _ _)
    (pairwise_insertionSort _ _) ?_
  exact (perm_insertionSort _ _).trans (hmap.trans (perm_insertionSort _ _).symm)

theorem SameArchive.set {n : DiskNode} :
    SameArchive (d.set (stversionsDir ++ [name]) n) (d'.set (stversionsDir ++ [name]) n) := by
  intro other
  rw [node_set, node_set, h other]

theorem SameArchive.remove :
    SameArchive (d.remove (stversionsDir ++ [name])) (d'.remove (stversionsDir ++ [name])) := by
  intro other
  rw [node_remove, node_remove, h other]

end

theorem sameArchive_createDirAll (h : d.createDirAll stversionsDir now = .ok d') :
    SameArchive d d' := by
  intro name
  rw [node_createDirAll h, if_neg]
  intro hle
  simpa [stversionsDir] using hle.length_le

section
variable (h : SameArchive d d')
include h

theorem SameArchive.symm : SameArchive d' d := fun name => (h name).symm

theorem SameArchive.trans (h' : SameArchive d' d'') : SameArchive d d'' :=
  fun name => (h' name).trans (h name)

/-- Writing the same content into both archives. -/
theorem SameArchive.write
    (hd : d.isDir stversionsDir = true) (hd' : d'.isDir stversionsDir = true) :
    (∃ e e', d.write (stversionsDir ++ [name]) content now = .error e ∧
      d'.write (stversionsDir ++ [name]) content now = .error e') ∨
    ∃ n, d.write (stversionsDir ++ [name]) content now = .ok (d.set (stversionsDir ++ [name]) n) ∧
      d'.write (stversionsDir ++ [name]) content now =
        .ok (d'.set (stversionsDir ++ [name]) n) := by
  have hne : stversionsDir ++ [name] ≠ [] := by simp
  unfold Disk.write
  rw [Disk.nodeAt_eq hne, Disk.nodeAt_eq hne, h name, List.dropLast_concat, hd, hd']
  cases hn : d.node (stversionsDir ++ [name]) with
  | none => exact .inr ⟨_, rfl, rfl⟩
  | some n =>
    cases n with
    | file => exact .inr ⟨_, rfl, rfl⟩
    | dir => exact .inl ⟨_, _, rfl, rfl⟩
    | symlink target modified view =>
      cases view with
      | dir => exact .inl ⟨_, _, rfl, rfl⟩
      | dangling | file => exact .inr ⟨_, rfl, rfl⟩

theorem SameArchive.archiveFile (hpath : d'.nodeAt path = d.nodeAt path)
    (hsome : (d.nodeAt path).isSome) (hd : ∃ d1, d.createDirAll stversionsDir clock.now = .ok d1)
    (hd' : ∃ d1, d'.createDirAll stversionsDir clock.now = .ok d1) :
    ((archiveFile clock faults d' path).1.isOk = (archiveFile clock faults d path).1.isOk) ∧
      SameArchive (archiveFile clock faults d path).2 (archiveFile clock faults d' path).2 := by
  obtain ⟨d1, hd1⟩ := hd
  obtain ⟨d1', hd1'⟩ := hd'
  have hsame : SameArchive d1 d1' :=
    (sameArchive_createDirAll hd1).symm.trans (h.trans (sameArchive_createDirAll hd1'))
  have hread : d1'.read? path = d1.read? path := by
    apply read?_congr
    rw [nodeAt_createDirAll hd1 hsome, nodeAt_createDirAll hd1' (by rwa [hpath]), hpath]
  unfold Syncthing.archiveFile
  rw [hd1, hd1']
  cases faults.createDir with
  | some e => exact ⟨rfl, h⟩
  | none =>
    cases faults.copy with
    | some e => exact ⟨rfl, hsame⟩
    | none =>
      simp only [orFault, copy, hread]
      cases d1.read? path with
      | none => exact ⟨rfl, hsame⟩
      | some content =>
        simp only [versionPath]
        rcases hsame.write (isDir_createDirAll hd1) (isDir_createDirAll hd1') with
          ⟨e, e', hw, hw'⟩ | ⟨n, hw, hw'⟩
        · rw [hw, hw']
          exact ⟨rfl, hsame⟩
        · rw [hw, hw']
          exact ⟨rfl, hsame.set⟩

end

theorem SameArchive.pruneVersions (times : List Mtime) (h : SameArchive d d') :
    SameArchive (pruneVersions clock faults path times d).2
      (pruneVersions clock faults path times d').2 := by
  induction times generalizing d d' with
  | nil => exact h
  | cons old rest ih =>
    have hne : versionPath path (clock.formatStamp old.1) ≠ [] := by simp [versionPath]
    have hnode : d'.nodeAt (versionPath path (clock.formatStamp old.1)) =
        d.nodeAt (versionPath path (clock.formatStamp old.1)) := by
      rw [nodeAt_eq hne, nodeAt_eq hne]
      exact h _
    simp only [Syncthing.pruneVersions]
    rw [pathExists_congr hnode]
    split
    · cases faults.removeFile with
      | some e => exact h
      | none =>
        simp only [orFault, removeFile, hnode]
        cases hn : d.nodeAt (versionPath path (clock.formatStamp old.1)) with
        | none => exact h
        | some n =>
          cases n with
          | dir => exact h
          | file | symlink => exact ih h.remove
    · exact ih h

/-- Archiving a file does to the entries of two equal archives the same. -/
theorem SameArchive.archive (v : Versioner) (h : SameArchive d d')
    (hpath : d'.nodeAt path = d.nodeAt path)
    (hd : ∃ d1, d.createDirAll stversionsDir clock.now = .ok d1)
    (hd' : ∃ d1, d'.createDirAll stversionsDir clock.now = .ok d1) :
    SameArchive (v.archive clock faults d path).2 (v.archive clock faults d' path).2 := by
  unfold Versioner.archive
  rw [pathExists_congr hpath]
  cases hexists : d.pathExists path with
  | false => exact h
  | true =>
    have hsome : (d.nodeAt path).isSome := by
      unfold pathExists at hexists
      cases hn : d.nodeAt path with
      | none => simp [hn] at hexists
      | some n => rfl
    obtain ⟨hok, hsame⟩ := @archiveFile _ _ _ clock faults h hpath hsome hd hd'
    simp only [Bool.not_true, Bool.false_eq_true, if_false]
    rcases hr : Syncthing.archiveFile clock faults d path with ⟨r, d1⟩
    rcases hr' : Syncthing.archiveFile clock faults d' path with ⟨r', d1'⟩
    rw [hr, hr'] at hok hsame
    cases v with
    | staggered => cases r <;> cases r' <;> exact hsame
    | simple keep =>
      cases r <;> cases r'
      · exact hsame
      · cases hok
      · cases hok
      · have hsame : SameArchive d1 d1' := hsame
        simp only [listVersionsFor_congr hsame]
        exact hsame.pruneVersions _

end sameArchive

/-- No directory is lost by archiving. -/
theorem node_archiveExisting_of_holdsDir {env : PullEnv} (h : d.holdsDir q = true) :
    (env.archiveExisting d path).node q = d.node q := by
  refine PullEnv.archiveExisting_induction (P := (FileStore.node · q = d.node q)) rfl
    fun hstep ih => ?_
  rw [← ih]
  rw [← holdsDir_congr ih] at h
  cases hstep with
  | createDir hdir =>
    rw [node_createDirAll hdir]
    unfold holdsDir at h
    split at h
    next hnode => simp [hnode]
    · cases h
  | write hwrite =>
    refine sameOutside_write hwrite (Set.mem_singleton _) q ?_
    rintro rfl
    rw [holdsDir_of_write hwrite] at h
    cases h
  | remove hremove =>
    refine sameOutside_removeFile hremove (Set.mem_singleton _) q ?_
    rintro rfl
    rw [holdsDir_of_removeFile hremove] at h
    cases h

/-- A version has a longer name than the file it was made of. -/
theorem versionPath_ne (path : List String) (stamp : String) : versionPath path stamp ≠ path := by
  intro h
  have hlast := congrArg (fun p : List String => (p.getLast?.getD "unknown").toList.length) h
  simp [versionPath, fileNameOrUnknown] at hlast

end Syncthing
