import Syncthing.Sync.ArchiveFrame
import Syncthing.Sync.PullerContent

/-! The file is built beside the target, so every failure before the rename leaves the target alone.
The fallback of the rename removes the target before the next attempt. -/
namespace Syncthing

open FileStore List Option Disk PullEnv

variable {env : PullEnv} {st : FolderState} {info recorded : FileInfo} {d d' d'' : Disk}
  {p q path temp : List String} {content : Bytes} {now modified : Mtime} {attempt left : Nat}

namespace Disk

/-- There is something at the path that `remove_file` can remove. -/
def removable (d : Disk) (p : List String) : Bool := d.pathExists p && !d.holdsDir p

theorem removable_congr (hp : p ≠ []) (h : d'.node p = d.node p) :
    d'.removable p = d.removable p := by
  have hnode : d'.nodeAt p = d.nodeAt p := by rw [nodeAt_eq hp, nodeAt_eq hp, h]
  rw [removable, removable, holdsDir_congr h, pathExists_congr hnode]

end Disk

/-- What is found at the target is what was found there before. -/
def TargetKept (path : List String) (d d' : Disk) : Prop :=
  d'.pathExists path = d.pathExists path ∧ d'.read? path = d.read? path

theorem TargetKept.of_node (hp : path ≠ []) (h : d'.node path = d.node path) :
    TargetKept path d d' := by
  have hnode : d'.nodeAt path = d.nodeAt path := by rw [nodeAt_eq hp, nodeAt_eq hp, h]
  exact ⟨pathExists_congr hnode, read?_congr hnode⟩

theorem targetKept_congr_left (hp : path ≠ []) (h : d'.node path = d.node path) :
    TargetKept path d' d'' ↔ TargetKept path d d'' := by
  obtain ⟨hexists, hread⟩ := TargetKept.of_node hp h
  rw [TargetKept, hexists, hread, TargetKept]

theorem not_targetKept (hp : path ≠ []) (hf : d.removable path = true)
    (h : d'.node path = none) : ¬ TargetKept path d d' := by
  rintro ⟨hexists, -⟩
  have hnone : d'.pathExists path = false := by simp [pathExists, nodeAt_eq hp, h]
  rw [hnone] at hexists
  simp [removable, ← hexists] at hf

namespace PullEnv

section
variable (hp : path ≠ [])
include hp

/-- Removing the target before an attempt has an effect only on a file. -/
theorem removeTarget_eq : env.removeTarget d path attempt =
    if d.removable path && (env.fault (.removeTarget attempt)).isNone then d.remove path
    else d := by
  unfold removeTarget removable
  cases hexists : d.pathExists path with
  | false => simp
  | true =>
    cases hfault : env.fault (.removeTarget attempt) with
    | some e => simp [orFault]
    | none =>
      unfold pathExists at hexists
      rw [nodeAt_eq hp] at hexists
      cases hn : d.node path with
      | none => simp [hn] at hexists
      | some n => cases n <;> simp [orFault, removeFile, nodeAt_eq hp, hn, holdsDir]

theorem removable_remove : removable (d.remove path) path = false := by
  simp [removable, pathExists, nodeAt_eq hp]

/-- Attempts before which nothing can be removed leave the disk as it was. -/
theorem renameRetries_kept (hkept : d.removable path = false ∨
      ∀ k, attempt ≤ k → k < attempt + left → (env.fault (.removeTarget k)).isSome)
    (h : (env.renameRetries temp path left attempt d).1 = false) :
    (env.renameRetries temp path left attempt d).2 = d := by
  induction left generalizing attempt with
  | zero => rfl
  | succ left ih =>
    have hstays : env.removeTarget d path attempt = d := by
      rw [removeTarget_eq hp, if_neg]
      rcases hkept with hf | hfaults
      · simp [hf]
      · simp [isSome_iff_ne_none.mp (hfaults attempt le_rfl (by omega))]
    simp only [renameRetries, hstays] at h ⊢
    split at h
    · cases h
    next e herr =>
      refine ih (hkept.imp_right fun hfaults k h1 h2 => ?_) h
      exact hfaults k (by omega) (by omega)

/-- One successful removal is enough to lose the file. -/
theorem renameRetries_removed (hf : d.removable path = true) {k : Nat}
    (hk : attempt ≤ k ∧ k < attempt + left) (hfault : env.fault (.removeTarget k) = none)
    (h : (env.renameRetries temp path left attempt d).1 = false) :
    (env.renameRetries temp path left attempt d).2.node path = none := by
  induction left generalizing attempt with
  | zero => omega
  | succ left ih =>
    simp only [renameRetries] at h ⊢
    split at h
    · cases h
    next e herr =>
      rw [removeTarget_eq hp, hf] at h ⊢
      cases hnow : env.fault (.removeTarget attempt) with
      | none =>
        simp only [hnow, isNone_none, Bool.and_true, if_true] at h ⊢
        rw [renameRetries_kept hp (.inl (removable_remove hp)) h]
        simp
      | some e' =>
        simp only [hnow, isNone_some, Bool.and_false, Bool.false_eq_true, if_false] at h ⊢
        have hne : k ≠ attempt := by
          rintro rfl
          rw [hfault] at hnow
          cases hnow
        exact ih ⟨by omega, by omega⟩ h

end

end PullEnv

/-- What a rename to `path` needs of the disk: a file to rename, a directory to put it in and no
directory at its place. -/
structure Renames (temp path : List String) (d : Disk) : Prop where
  source : (d.read? temp).isSome
  parent : d.isDir path.dropLast = true
  target : d.holdsDir path = false

theorem Renames.rename_ok (h : Renames temp path d) (hp : path ≠ [])
    (hlen : temp.length = path.length) (hne : temp ≠ path) : ∃ d', d.rename temp path = .ok d' := by
  have h1 : ¬ temp <+: path := fun hle => hne (hle.eq_of_length hlen)
  have h2 : ¬ path <+: temp := fun hle => hne (hle.eq_of_length hlen.symm).symm
  have hr : d.replaceable temp path = true := by
    have hs := h.source
    have ht := h.target
    unfold read? at hs
    unfold holdsDir at ht
    unfold replaceable
    rw [nodeAt_eq hp]
    cases hn : d.nodeAt temp with
    | none => simp [hn] at hs
    | some n => cases hm : d.node path with
      | none => rfl
      | some m => cases n <;> cases m <;> simp_all
  refine ⟨d.move temp path, ?_⟩
  simp [rename, hne, h.parent, h1, h2, hr]

theorem not_prefix_dropLast (hp : path ≠ []) : ¬ path <+: path.dropLast := by
  intro hle
  have := hle.length_le
  have := length_pos_of_ne_nil hp
  simp only [length_dropLast] at *
  omega

theorem isDir_parent_removeTarget (hp : path ≠ []) :
    (env.removeTarget d path attempt).isDir path.dropLast = d.isDir path.dropLast := by
  have h : Cleared path d (env.removeTarget d path attempt) := cleared_removeTarget
  exact isDir_congr (h.nodeAt fun heq => not_prefix_dropLast hp (by rw [heq]))

theorem Renames.removeTarget (h : Renames temp path d) (hp : path ≠ []) (hne : temp ≠ path) :
    Renames temp path (env.removeTarget d path attempt) := by
  have hc : Cleared path d (env.removeTarget d path attempt) := cleared_removeTarget
  refine ⟨?_, (isDir_parent_removeTarget hp).trans h.parent, ?_⟩
  · rw [read?_congr (hc.nodeAt hne)]
    exact h.source
  · rcases hc.target with hn | hn
    · rw [holdsDir_congr hn]
      exact h.target
    · simp [holdsDir, hn]

namespace PullEnv

theorem forall_attempts {P : Nat → Prop} {n : Nat} :
    (∀ k, attempt ≤ k → k < attempt + (n + 1) → P k) ↔
      P attempt ∧ ∀ k, attempt + 1 ≤ k → k < attempt + 1 + n → P k := by
  refine ⟨fun h => ⟨h attempt le_rfl (by omega), fun k _ _ => h k (by omega) (by omega)⟩, ?_⟩
  rintro ⟨hfirst, hrest⟩ k h1 h2
  rcases Nat.eq_or_lt_of_le h1 with rfl | h1
  · exact hfirst
  · exact hrest k h1 (by omega)

/-- With everything a rename needs, the attempts fail only if each of the calls does. -/
theorem renameRetries_refused_iff (hp : path ≠ [])
    (hlen : temp.length = path.length) (hne : temp ≠ path) (h : Renames temp path d) :
    (env.renameRetries temp path left attempt d).1 = false ↔
      ∀ k, attempt ≤ k → k < attempt + left → (env.fault (.rename k)).isSome := by
  induction left generalizing attempt d with
  | zero => exact ⟨fun _ k h1 h2 => by omega, fun _ => rfl⟩
  | succ left ih =>
    have hnext : Renames temp path (env.removeTarget d path attempt) := h.removeTarget hp hne
    obtain ⟨d1, hd1⟩ := hnext.rename_ok hp hlen hne
    simp only [renameRetries, hd1, forall_attempts]
    cases hfault : env.fault (.rename attempt) with
    | none => simp [orFault]
    | some e => simp [orFault, ih hnext]

theorem renameRetries_blocked (hp : path ≠ []) (hne : temp ≠ path)
    (h : d.isDir path.dropLast = false) :
    (env.renameRetries temp path left attempt d).1 = false := by
  induction left generalizing attempt d with
  | zero => rfl
  | succ left ih =>
    have hdir : (env.removeTarget d path attempt).isDir path.dropLast = false :=
      (isDir_parent_removeTarget hp).trans h
    have herr : (env.removeTarget d path attempt).rename temp path = .error "rename failed" := by
      simp [rename, hne, hdir]
    simp only [renameRetries, herr]
    cases env.fault (.rename attempt) <;> exact ih hdir

/-- The attempts of `rename_with_retry` that are preceded by a removal. -/
def Removes (env : PullEnv) : Prop :=
  ∃ k, 1 ≤ k ∧ k ≤ renameRetryMaxAttempts + 1 ∧ env.fault (.removeTarget k) = none

/-- Every attempt of `rename_with_retry` fails, whatever is on the disk. -/
def Refuses (env : PullEnv) : Prop :=
  ∀ k, k ≤ renameRetryMaxAttempts + 1 → (env.fault (.rename k)).isSome

theorem renameWithRetry_refused_iff (hp : path ≠ [])
    (hlen : temp.length = path.length) (hne : temp ≠ path) (h : Renames temp path d) :
    (env.renameWithRetry d temp path).1 = false ↔ env.Refuses := by
  obtain ⟨d1, hd1⟩ := h.rename_ok hp hlen hne
  have hall : env.Refuses ↔ ∀ k, 0 ≤ k → k < 0 + (renameRetryMaxAttempts + 1 + 1) →
      (env.fault (.rename k)).isSome := by
    constructor
    · exact fun h k _ hk => h k (by omega)
    · exact fun h k hk => h k (Nat.zero_le k) (by omega)
  rw [hall, forall_attempts]
  simp only [renameWithRetry, hd1]
  cases hfault : env.fault (.rename 0) with
  | none => simp [orFault]
  | some e => simpa [orFault] using renameRetries_refused_iff hp hlen hne h

theorem renameWithRetry_blocked (hp : path ≠ []) (hne : temp ≠ path)
    (h : d.isDir path.dropLast = false) : (env.renameWithRetry d temp path).1 = false := by
  have herr : d.rename temp path = .error "rename failed" := by simp [rename, hne, h]
  simp only [renameWithRetry, herr]
  cases env.fault (.rename 0) <;> exact renameRetries_blocked hp hne h

/-- A failed rename has gone through all the attempts. -/
theorem renameWithRetry_failed (h : (env.renameWithRetry d temp path).1 = false) :
    env.renameWithRetry d temp path =
      env.renameRetries temp path (renameRetryMaxAttempts + 1) 1 d := by
  unfold renameWithRetry at h ⊢
  split at h
  · cases h
  · rfl

/-- What a failed rename leaves at its target. -/
theorem targetKept_renameWithRetry_iff (hp : path ≠ [])
    (h : (env.renameWithRetry d temp path).1 = false) :
    TargetKept path d (env.renameWithRetry d temp path).2 ↔
      ¬ (d.removable path = true ∧ env.Removes) := by
  have heq := renameWithRetry_failed h
  rw [heq] at h ⊢
  constructor
  · rintro hkept ⟨hf, k, h1, h2, hfault⟩
    exact not_targetKept hp hf (renameRetries_removed hp hf ⟨h1, by omega⟩ hfault h) hkept
  · intro hnot
    rw [renameRetries_kept hp ?_ h]
    · exact ⟨rfl, rfl⟩
    · cases hf : d.removable path with
      | false => exact .inl rfl
      | true =>
        refine .inr fun k h1 h2 => isSome_iff_ne_none.mpr fun hfault => ?_
        exact hnot ⟨hf, k, h1, by omega, hfault⟩

/-- Archiving removes the directory of the target. That takes a link to a directory that bears the
name of an old version. -/
def ParentPruned (env : PullEnv) (d : Disk) (path : List String) : Prop :=
  d.isSymlink path.dropLast = true ∧ (env.archiveExisting d path).isDir path.dropLast = false

/-- The temporary file of a record can be made and filled. -/
structure FillsTemp (env : PullEnv) (st : FolderState) (info : FileInfo) : Prop where
  name : validateRemoteName info.name = .ok ()
  createParent : env.fault .createParent = none
  parents : ∀ q, q <+: (namePath info.name).dropLast → (st.disk.nodeAt q).isSome →
    st.disk.isDir q = true
  temp : st.disk.isDir (tempPathFor (namePath info.name)) = false
  source : (∃ source, env.findLocalCopySource st info = .ok (some source) ∧
      env.fault .copySource = none) ∨
    (env.findLocalCopySource st info = .ok none ∧ env.fault .createTemp = none ∧
      (∀ b ∈ info.blocks.zipIdx, ∃ source ∈ env.blockSource, ∃ data, source b.1 b.2 = .ok data ∧
        env.sha256 data = b.1.hash ∧ env.fault (.writeBlock b.2) = none) ∧
      env.fault .flush = none ∧ env.fault .setPermissions = none)

/-- A file at the target is removed in favour of a temporary file that never takes its place. -/
structure LosesTarget (env : PullEnv) (st : FolderState) (info : FileInfo) : Prop where
  filled : env.FillsTemp st info
  target : st.disk.removable (namePath info.name) = true
  removed : env.Removes
  refused : env.Refuses ∨ env.ParentPruned st.disk (namePath info.name)

theorem fetchBlocks_ok_iff {name : String} {blocks : List BlockInfo} {i : Nat} {acc : Bytes} :
    (env.fetchBlocks name blocks i acc).1 = .ok () ↔
      ∀ b ∈ blocks.zipIdx i, ∃ source ∈ env.blockSource, ∃ data, source b.1 b.2 = .ok data ∧
        env.sha256 data = b.1.hash ∧ env.fault (.writeBlock b.2) = none := by
  induction blocks generalizing i acc with
  | nil => simp [fetchBlocks]
  | cons block blocks ih =>
    simp only [zipIdx_cons, forall_mem_cons, fetchBlocks]
    cases hs : env.blockSource with
    | none => simp
    | some source =>
      cases hdata : source block i with
      | error e => simp [hdata]
      | ok data =>
        by_cases hhash : env.sha256 data = block.hash
        · cases hw : env.fault (.writeBlock i) with
          | some e => simp [hdata, hhash]
          | none => simp [hdata, hhash, ih, hs]
        · simp [hdata, hhash]

end PullEnv

variable (hparents : ∀ q, q <+: path.dropLast → (d.nodeAt q).isSome → d.isDir q = true)

section
variable (h : Prepared d path now d')
include h

theorem Prepared.node_target (hp : path ≠ []) : d'.node path = d.node path := by
  rw [h.parents path (tempPathFor_ne hp).symm, if_neg (not_prefix_dropLast hp)]

theorem Prepared.node_of_isSome (hq : q ≠ tempPathFor path)
    (hsome : (d.node q).isSome) : d'.node q = d.node q := by
  rw [h.parents q hq]
  split
  · exact or_of_isSome hsome
  · rfl

include hparents in
/-- The way to the target is made of directories. -/
theorem Prepared.isDir_of_prefix (hq : q <+: path.dropLast) : d'.isDir q = true := by
  have hnode := h.parents q (ne_tempPathFor_of_le hq)
  rw [if_pos hq] at hnode
  exact isDir_of_made hnode (hparents q hq)

end

namespace PullEnv

theorem node_target_archived (hp : path ≠ []) :
    (env.archiveExisting d path).node path = d.node path := by
  cases hn : d.node path with
  | none =>
    have hexists : d.pathExists path = false := by simp [pathExists, nodeAt_eq hp, hn]
    unfold archiveExisting
    split
    · simp [hexists, hn]
    · exact hn
  | some n =>
    have hkept := @nodeAt_archiveExisting env d path path (by rw [nodeAt_eq hp, hn]; rfl)
      fun t => versionPath_ne _ _
    rwa [nodeAt_eq hp, nodeAt_eq hp, hn] at hkept

theorem sameArchive_archiveExisting (h : SameArchive d d') (hpath : d'.nodeAt path = d.nodeAt path)
    (hd : ∃ d1, d.createDirAll stversionsDir env.clock.now = .ok d1)
    (hd' : ∃ d1, d'.createDirAll stversionsDir env.clock.now = .ok d1) :
    SameArchive (env.archiveExisting d path) (env.archiveExisting d' path) := by
  unfold archiveExisting
  rw [pathExists_congr hpath]
  split
  · split
    · exact h.archive _ hpath hd hd'
    · exact h
  · exact h

include hparents in
/-- With a link for its directory, a target is archived in the same way before and after its
temporary file is made. -/
theorem node_parent_archived (hp : path ≠ []) (hf : Prepared d path now d') (hne : path.dropLast ≠ [])
    (hsome : (d.node path.dropLast).isSome) : (env.archiveExisting d' path).node path.dropLast =
      (env.archiveExisting d path).node path.dropLast := by
  have hnode := hf.node_of_isSome (ne_tempPathFor_of_le prefix_rfl) hsome
  by_cases hver : ∃ t, versionPath path (env.clock.formatStamp t) = path.dropLast
  · obtain ⟨t, ht⟩ := hver
    have hdir : path.dropLast = stversionsDir ++ _ := ht.symm
    have hlen : path.length = 3 := by
      have := congrArg length hdir
      have := length_pos_of_ne_nil hp
      simp [stversionsDir] at *
      omega
    have hsame : SameArchive d d' := by
      intro name
      by_cases hq : stversionsDir ++ [name] = path.dropLast
      · rw [hq, hnode]
      · rw [hf.parents, if_neg]
        · intro hle
          exact hq (hle.eq_of_length (by rw [hdir]; rfl))
        · intro hq
          have := congrArg length hq
          rw [tempPathFor_length hp, hlen] at this
          simp [stversionsDir] at this
    have habove : ∀ q, q <+: stversionsDir → q <+: path.dropLast := by
      intro q hq
      rw [hdir]
      exact hq.trans (prefix_append _ _)
    have h1 : ∃ d1, d.createDirAll stversionsDir env.clock.now = .ok d1 :=
      createDirAll_ok_iff.mpr fun q hq => hparents q (habove q hq)
    have h2 : ∃ d1, d'.createDirAll stversionsDir env.clock.now = .ok d1 :=
      createDirAll_ok_iff.mpr fun q hq _ => hf.isDir_of_prefix hparents (habove q hq)
    have hpath : d'.nodeAt path = d.nodeAt path := by
      rw [nodeAt_eq hp, nodeAt_eq hp, hf.node_target hp]
    rw [hdir]
    exact sameArchive_archiveExisting hsame hpath h1 h2 _
  · have hkept : ∀ x : Disk, (x.node path.dropLast).isSome →
        (env.archiveExisting x path).node path.dropLast = x.node path.dropLast := by
      intro x hx
      rw [← nodeAt_eq hne, ← nodeAt_eq hne]
      exact nodeAt_archiveExisting (by rwa [nodeAt_eq hne]) fun t ht => hver ⟨t, ht⟩
    rw [hkept d hsome, hkept d' (by rwa [hnode]), hnode]

include hparents in
/-- The temporary file makes no difference to whether archiving removes the directory. -/
theorem isDir_parent_archived_iff (hp : path ≠ []) (hf : Prepared d path now d') :
    (env.archiveExisting d' path).isDir path.dropLast = false ↔ env.ParentPruned d path := by
  by_cases hne : path.dropLast = []
  · simp [ParentPruned, isDir, isSymlink, nodeAt, hne]
  · cases hlink : d.isSymlink path.dropLast with
    | true =>
      have hsome : (d.node path.dropLast).isSome := by
        unfold isSymlink at hlink
        rw [nodeAt_eq hne] at hlink
        cases hn : d.node path.dropLast with
        | none => simp [hn] at hlink
        | some n => rfl
      have hnode : (env.archiveExisting d' path).nodeAt path.dropLast =
          (env.archiveExisting d path).nodeAt path.dropLast := by
        rw [nodeAt_eq hne, nodeAt_eq hne, node_parent_archived hparents hp hf hne hsome]
      rw [ParentPruned, hlink, isDir_congr hnode]
      simp
    | false =>
      have hdir := hf.isDir_of_prefix hparents prefix_rfl
      have hnode := hf.parents _ (ne_tempPathFor_of_le prefix_rfl)
      rw [if_pos prefix_rfl] at hnode
      have hreal : d'.holdsDir path.dropLast = true := by
        unfold isSymlink at hlink
        unfold isDir at hdir
        rw [nodeAt_eq hne] at hlink hdir
        rw [hnode] at hdir
        unfold holdsDir
        rw [hnode]
        cases hn : d.node path.dropLast with
        | none => rfl
        | some n => cases n <;> simp_all
      have hkept : (env.archiveExisting d' path).nodeAt path.dropLast =
          d'.nodeAt path.dropLast := by
        rw [nodeAt_eq hne, nodeAt_eq hne, node_archiveExisting_of_holdsDir hreal]
      rw [isDir_congr hkept, hdir, ParentPruned, hlink]
      simp

end PullEnv

/-- The temporary file can be written unless there is a directory in its place. -/
theorem write_temp_ok_iff (h : d.createDirAll path.dropLast now = .ok d') :
    (∃ d'', d'.write (tempPathFor path) content modified = .ok d'') ↔
      d.isDir (tempPathFor path) = false := by
  have hne := tempPathFor_ne_nil path
  have hnode : d'.nodeAt (tempPathFor path) = d.nodeAt (tempPathFor path) := by
    rw [nodeAt_eq hne, nodeAt_eq hne, node_temp_createDirAll h]
  have hdir : d'.isDir (tempPathFor path).dropLast = true := by
    rw [tempPathFor, dropLast_concat]
    exact isDir_createDirAll h
  rw [write_ok_iff, hdir, isDir_congr hnode]
  simp

theorem orFault_eq_error {α : Type} {fault : Option IoError} {result : Except IoError α}
    {e : IoError} (h : orFault fault result = .error e) :
    ¬ (fault = none ∧ ∃ a, result = .ok a) := by
  rintro ⟨hnone, a, ha⟩
  rw [hnone, ha] at h
  cases h

namespace PullEnv

/-- A download that got no temporary file, or one that comes down to an installation. -/
inductive Reaches (env : PullEnv) (st : FolderState) (info : FileInfo) :
    TaskResult → FolderState → Prop where
  | before (result : TaskResult) (state : FolderState) (hf : ¬ env.FillsTemp st info)
    (hn : state.disk.node (namePath info.name) = st.disk.node (namePath info.name)) :
    Reaches env st info result state
  | install (d : Disk) (recorded : FileInfo) (hf : env.FillsTemp st info)
    (hp : Fetched st.disk (namePath info.name) env.clock.now d) (result : TaskResult)
    (state : FolderState)
    (hi : env.install ⟨st.db, env.archiveExisting d (namePath info.name)⟩ info recorded =
      (result, state)) : Reaches env st info result state

theorem reaches_copyFromLocal {source : List String} (hname : validateRemoteName info.name = .ok ())
    (hs : env.findLocalCopySource st info = .ok (some source)) :
    Reaches env st info (env.copyFromLocal st info source).1
      (env.copyFromLocal st info source).2 := by
  unfold copyFromLocal
  simp only
  split
  next e herr =>
    refine .before _ _ (fun hf => ?_) rfl
    exact orFault_eq_error herr ⟨hf.createParent, createDirAll_ok_iff.mpr hf.parents⟩
  next d1 h1 =>
    obtain ⟨hparent, h1⟩ := orFault_eq_ok.mp h1
    obtain ⟨found, hfound⟩ := read?_findLocalCopySource hs
    have hread : d1.read? source = some found := by
      rw [← hfound]
      exact read?_congr (nodeAt_createDirAll h1 (isSome_nodeAt_of_read? hfound))
    split
    next e herr =>
      refine .before _ _ (fun hf => ?_)
        ((Prepared.of_createDirAll h1).node_target (namePath_ne_nil _))
      obtain ⟨_, hs', hcopy⟩ | ⟨hs', -⟩ := hf.source
      · refine orFault_eq_error herr ⟨hcopy, ?_⟩
        simp only [copy, hread]
        exact (write_temp_ok_iff h1).mpr hf.temp
      · rw [hs] at hs'
        cases hs'
    next d2 h2 =>
      obtain ⟨hcopy, h2⟩ := orFault_eq_ok.mp h2
      simp only [copy, hread] at h2
      exact .install d2 info ⟨hname, hparent, createDirAll_ok_iff.mp ⟨d1, h1⟩,
        (write_temp_ok_iff h1).mp ⟨d2, h2⟩, .inl ⟨source, hs, hcopy⟩⟩ (.of_write h1 h2) _ _ rfl

variable {r : Downloaded}

theorem reaches_downloadBlocks (hname : validateRemoteName info.name = .ok ())
    (hs : env.findLocalCopySource st info = .ok none) (h : env.downloadBlocks st info = some r) :
    Reaches env st info r.result r.state := by
  have hpath := namePath_ne_nil info.name
  -- what a filled temporary file takes if there is no local source
  have hsource : env.FillsTemp st info → env.fault .createTemp = none ∧
      (env.fetchBlocks info.name info.blocks 0 []).1 = .ok () ∧
      env.fault .flush = none ∧ env.fault .setPermissions = none := by
    intro hf
    obtain ⟨_, hs', -⟩ | ⟨-, htemp, hblocks, hrest⟩ := hf.source
    · rw [hs] at hs'
      cases hs'
    · exact ⟨htemp, fetchBlocks_ok_iff.mpr hblocks, hrest⟩
  unfold downloadBlocks at h
  simp only at h
  split at h
  next e herr =>
    cases h
    refine .before _ _ (fun hf => ?_) rfl
    exact orFault_eq_error herr ⟨hf.createParent, createDirAll_ok_iff.mpr hf.parents⟩
  next d1 h1 =>
    obtain ⟨hparent, h1⟩ := orFault_eq_ok.mp h1
    split at h
    next e herr =>
      cases h
      refine .before _ _ (fun hf => ?_) ((Prepared.of_createDirAll h1).node_target hpath)
      exact orFault_eq_error herr ⟨(hsource hf).1, (write_temp_ok_iff h1).mpr hf.temp⟩
    next d2 h2 =>
      obtain ⟨htemp, h2⟩ := orFault_eq_ok.mp h2
      have hfetched : Fetched st.disk (namePath info.name) env.clock.now
          (d2.overwrite (tempPathFor (namePath info.name))
            (env.fetchBlocks info.name info.blocks 0 []).2 env.clock.now) :=
        (Fetched.of_write h1 h2).overwrite _
      have hcleaned := (@prepared_cleanupTemp env _ _ _ _ hfetched.toPrepared).node_target hpath
      split at h
      next e herr =>
        cases h
        refine .before _ _ (fun hf => ?_) hcleaned
        rw [(hsource hf).2.1] at herr
        cases herr
      next hok =>
        split at h
        next hflush =>
          cases h
          refine .before _ _ (fun hf => ?_) hcleaned
          rw [(hsource hf).2.2.1] at hflush
          cases hflush
        next hperms =>
          cases h
          refine .before _ _ (fun hf => ?_) hcleaned
          rw [(hsource hf).2.2.2] at hperms
          cases hperms
        next hflush hperms =>
          obtain ⟨d, recorded, hp, hi, -⟩ := finishDownload_spec h hfetched
          exact .install d recorded ⟨hname, hparent, createDirAll_ok_iff.mp ⟨d1, h1⟩,
            (write_temp_ok_iff h1).mp ⟨d2, h2⟩, .inr ⟨hs, htemp, fetchBlocks_ok_iff.mp hok, hflush,
              hperms⟩⟩ hp _ _ hi

theorem reaches (h : env.downloadFile st info = some r) : Reaches env st info r.result r.state := by
  unfold downloadFile at h
  split at h
  next e hname =>
    cases h
    refine .before _ _ (fun hf => ?_) rfl
    rw [hf.name] at hname
    cases hname
  next hname =>
    split at h
    next e hs =>
      cases h
      refine .before _ _ (fun hf => ?_) rfl
      obtain ⟨_, hs', -⟩ | ⟨hs', -⟩ := hf.source <;> rw [hs] at hs' <;> cases hs'
    next source hs =>
      obtain rfl : r = ⟨(env.copyFromLocal st info source).1,
        (env.copyFromLocal st info source).2, false⟩ := (some.inj h).symm
      exact reaches_copyFromLocal hname hs
    next hs => exact reaches_downloadBlocks hname hs h

/-- An installation fails exactly if its rename does, and then leaves what the rename left. -/
theorem install_error_iff {result : TaskResult} {state : FolderState}
    (h : env.install st info recorded = (result, state)) :
    ((∃ e, result = .error e) ↔ (env.renameWithRetry st.disk (tempPathFor (namePath info.name))
        (namePath info.name)).1 = false) ∧
      ((env.renameWithRetry st.disk (tempPathFor (namePath info.name))
        (namePath info.name)).1 = false → state.disk = (env.renameWithRetry st.disk
          (tempPathFor (namePath info.name)) (namePath info.name)).2) := by
  unfold install at h
  simp only at h
  split at h
  next hren =>
    cases h
    simp_all
  next hren =>
    split at h <;> cases h <;> simp_all

/-- What the failed rename of a download leaves at its target. -/
theorem targetKept_archived_iff (hp : path ≠ []) (hf : Prepared d path now d')
    (h : (env.renameWithRetry (env.archiveExisting d' path) temp path).1 = false) :
    TargetKept path d (env.renameWithRetry (env.archiveExisting d' path) temp path).2 ↔
      ¬ (d.removable path = true ∧ env.Removes) := by
  have hnode : (env.archiveExisting d' path).node path = d.node path :=
    (node_target_archived hp).trans (hf.node_target hp)
  rw [← targetKept_congr_left hp hnode, targetKept_renameWithRetry_iff hp h,
    removable_congr hp hnode]

include hparents in
/-- When the rename of a filled temporary file over a file fails. -/
theorem rename_archived_failed_iff (hp : path ≠ []) (hf : Fetched d path now d')
    (hfile : d.removable path = true) :
    (env.renameWithRetry (env.archiveExisting d' path) (tempPathFor path) path).1 = false ↔
      env.Refuses ∨ env.ParentPruned d path := by
  have hparent := @isDir_parent_archived_iff env _ _ _ _ hparents hp hf.toPrepared
  have hlen := tempPathFor_length hp
  cases hdir : (env.archiveExisting d' path).isDir path.dropLast with
  | false =>
    rw [renameWithRetry_blocked hp (tempPathFor_ne hp) hdir]
    simp [hparent.mp hdir]
  | true =>
    obtain ⟨content, hread⟩ := hf.content
    have hnode : (env.archiveExisting d' path).node path = d.node path :=
      (node_target_archived hp).trans (hf.node_target hp)
    have hready : Renames (tempPathFor path) path (env.archiveExisting d' path) := by
      refine ⟨?_, hdir, ?_⟩
      · rw [read?_congr (nodeAt_archiveExisting (isSome_nodeAt_of_read? hread)
          fun t => versionPath_ne_tempPathFor _ t _ _), hread]
        rfl
      · rw [holdsDir_congr hnode]
        simp only [removable, Bool.and_eq_true, Bool.not_eq_true'] at hfile
        exact hfile.2
    rw [renameWithRetry_refused_iff hp hlen (tempPathFor_ne hp) hready]
    rw [hdir] at hparent
    constructor
    · exact .inl
    · rintro (hrefuses | hpruned)
      · exact hrefuses
      · cases hparent.mpr hpruned

/-- A download that returns an error leaves its target alone, unless the target is a file that the
fallback of the rename removes in favour of a temporary file that cannot take its place. -/
theorem downloadFile_error_keeps_target_iff {r : Downloaded}
    (h : env.downloadFile st info = some r) : ((∃ e, r.result = .error e) →
      TargetKept (namePath info.name) st.disk r.state.disk) ↔ ¬ env.LosesTarget st info := by
  have hpath := namePath_ne_nil info.name
  cases reaches h with
  | before _ _ hf hn => exact ⟨fun _ hloses => hf hloses.filled, fun _ _ => .of_node hpath hn⟩
  | install d recorded hf hp _ _ hi =>
    obtain ⟨herror, hleaves⟩ := install_error_iff hi
    rw [herror]
    constructor
    · rintro hkeeps ⟨-, htarget, hremoves, hrefused⟩
      have hfailed := (rename_archived_failed_iff hf.parents hpath hp htarget).mpr hrefused
      have hkept := hkeeps hfailed
      rw [hleaves hfailed] at hkept
      exact (targetKept_archived_iff hpath hp.toPrepared hfailed).mp hkept ⟨htarget, hremoves⟩
    · intro hnot hfailed
      rw [hleaves hfailed]
      refine (targetKept_archived_iff hpath hp.toPrepared hfailed).mpr ?_
      rintro ⟨htarget, hremoves⟩
      exact hnot ⟨hf, htarget, hremoves,
        (rename_archived_failed_iff hf.parents hpath hp htarget).mp hfailed⟩

end PullEnv

/-- Every rename fails, and the removals fail if the target is locked. -/
def refusingEnv (locked : Bool) : PullEnv := { calmEnv with fault := fun
      | .rename _ => some "Permission denied"
      | .removeTarget _ => if locked then some "Permission denied" else none
      | _ => none }

/-- A folder with one file. -/
def oneFile : FolderState := ⟨.empty, FileStore.empty.set ["doc"] (.file [1] (0, 0))⟩

theorem downloadFile_keeps_locked_target :
    ∃ r, (refusingEnv true).downloadFile oneFile (oneByte "doc" 7) = some r ∧
      r.result = .error (renameError "doc") ∧
      TargetKept ["doc"] oneFile.disk r.state.disk := by
  obtain ⟨r, hr, hresult⟩ : ∃ r, (refusingEnv true).downloadFile oneFile (oneByte "doc" 7) =
      some r ∧ r.result = .error (renameError "doc") := ⟨_, rfl, rfl⟩
  refine ⟨r, hr, hresult, ?_⟩
  refine (downloadFile_error_keeps_target_iff hr).mpr ?_ ⟨_, hresult⟩
  rintro ⟨-, -, ⟨k, -, -, hk⟩, -⟩
  cases hk

/-- The download fails and the old file is gone. -/
theorem downloadFile_error_loses_target : oneFile.disk.read? ["doc"] = some [1] ∧
      ((refusingEnv false).downloadFile oneFile (oneByte "doc" 7)).map (fun r =>
        (r.result, r.state.disk.pathExists ["doc"], r.state.disk.read? ["doc"])) =
      some (.error (renameError "doc"), false, none) := by
  decide

end Syncthing
