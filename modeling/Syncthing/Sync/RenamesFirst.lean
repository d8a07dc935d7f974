import Syncthing.Sync.ScanSequences
import Syncthing.Sync.WatcherScans

/-! A receiver can copy a renamed file from its old name as long as that is not deleted. A full scan
announces renamed files first. An incremental scan clears the blocks of a deletion before it looks
for renames. -/
namespace Syncthing

open Program ScanEnv
open List hiding concat

variable (db : FolderFiles) (changed : List FileInfo)

/-- A live record of a change list with the blocks that the database has for a file deleted in the
list. -/
def RenameTarget (f : FileInfo) : Prop :=
  f.isDeleted = false ∧ ∃ del ∈ changed, del.isDeleted = true ∧
    ∃ old, db.find? del.name = some old ∧ hasSameBlocks old f = true

/-- Renamed files come before everything else. -/
def TargetsFirst : Prop :=
  ∃ front back, changed = front ++ back ∧ (∀ f ∈ front, RenameTarget db changed f) ∧
    ∀ f ∈ back, ¬ RenameTarget db changed f

/-- What an incremental scan comes upon, in that order. -/
def ScanEnv.collectDirty (env : ScanEnv) (d : Disk) (pullInFlight : Bool)
    (changes deletes : List String) : ScanM (List FileInfo) := do
  let changed ← concat (env.scanDirtyChange d pullInFlight) changes
  let deleted ← concat (env.scanDirtyDelete d) deletes
  return changed ++ deleted

variable {env : ScanEnv} {d : Disk} {s t : ScanState} {db : FolderFiles}
  {changed deleted compared files : List FileInfo} {f : FileInfo}

@[simp] theorem isDeleted_clearDeletedBlocks : (clearDeletedBlocks f).isDeleted = f.isDeleted := by
  unfold clearDeletedBlocks
  split <;> rfl

theorem blockless_clearDeletedBlocks : Blockless (clearDeletedBlocks f) := by
  intro hgone
  rw [isDeleted_clearDeletedBlocks] at hgone
  rw [clearDeletedBlocks, if_pos hgone]

theorem clearDeletedBlocks_of_blockless (h : Blockless f) : clearDeletedBlocks f = f := by
  unfold clearDeletedBlocks
  split
  · rename_i hdeleted
    rw [← h hdeleted]
  · rfl

section
variable (hkept : ∀ x ∈ changed, x.isDeleted = true →
  ∃ old, db.find? x.name = some old ∧ old.blocks = x.blocks)
include hkept

/-- What `detect_and_reorder_renames` takes for a rename is one, where deletions still have the
blocks of the database. -/
theorem isRenamed_iff : isRenamed changed f = true ↔ RenameTarget db
    ((detectAndReorderRenames changed).map clearDeletedBlocks) (clearDeletedBlocks f) := by
  simp only [isRenamed, Bool.and_eq_true, Bool.not_eq_true', any_eq_true, RenameTarget,
    isDeleted_clearDeletedBlocks]
  constructor
  · rintro ⟨hlive, del, hdel, hgone, hsame⟩
    obtain ⟨old, hold, hblocks⟩ := hkept del hdel hgone
    refine ⟨hlive, _, mem_map_of_mem (mem_detectAndReorderRenames.mpr hdel), by simpa, old,
      by simpa, ?_⟩
    rwa [clearDeletedBlocks_of_live hlive, hasSameBlocks_congr hblocks rfl]
  · rintro ⟨hlive, g, hg, hgone, old, hold, hsame⟩
    obtain ⟨del, hdel, rfl⟩ := mem_map.mp hg
    rw [mem_detectAndReorderRenames] at hdel
    rw [isDeleted_clearDeletedBlocks] at hgone
    rw [name_clearDeletedBlocks] at hold
    rw [clearDeletedBlocks_of_live hlive] at hsame
    obtain ⟨old', hold', hblocks⟩ := hkept del hdel hgone
    cases hold.symm.trans hold'
    exact ⟨hlive, del, hdel, hgone, by rwa [hasSameBlocks_congr hblocks.symm rfl]⟩

theorem targetsFirst_detectAndReorderRenames :
    TargetsFirst db ((detectAndReorderRenames changed).map clearDeletedBlocks) := by
  refine ⟨(changed.filter (isRenamed changed)).map clearDeletedBlocks,
    (changed.filter (!isRenamed changed ·)).map clearDeletedBlocks, ?_, ?_, ?_⟩
  · rw [detectAndReorderRenames_eq_filter, map_append]
  · simp only [forall_mem_map, mem_filter, and_imp]
    exact fun x _ => (isRenamed_iff hkept).mp
  · simp only [forall_mem_map, mem_filter, and_imp]
    intro x _ hnot h
    rw [(isRenamed_iff hkept).mpr h] at hnot
    cases hnot

end

namespace ScanEnv

theorem ends_findChanges_targetsFirst : Ends (env.findChanges d none)
    (fun out _ => TargetsFirst s.db out) (fun _ => True) s := by
  unfold findChanges
  simp only [ends_ite, ends_bind, ends_pure, ends_require]
  refine ⟨nofun, fun _ => ⟨fun _ _ => ⟨nofun, fun _ => ⟨fun files hfiles => ?_, by simp⟩⟩, by simp⟩⟩
  refine ends_scanDeletions.imp (fun deleted t ht => ?_) fun _ _ => trivial
  obtain ⟨htdb, hdeleted⟩ := ht
  refine ends_collect_compareFile.imp (fun compared u hu => ?_) fun _ _ => trivial
  obtain ⟨-, hcompared⟩ := hu
  refine targetsFirst_detectAndReorderRenames fun x hx hgone => ?_
  rcases mem_append.mp hx with hx | hx
  · obtain ⟨-, old, hold, ⟨-, -, sequence, rfl⟩, -⟩ := hdeleted x hx
    exact ⟨old, KeyedList.find?_key hold, rfl⟩
  · obtain ⟨file, hfile, hc⟩ := hcompared x hx
    rw [(blocks_of_compared hc).2, live_of_scanDirectory hfiles file hfile] at hgone
    cases hgone

variable {inFlight : Bool}

theorem ends_scanDirtyChange_blockless {relative : String} :
    Ends (env.scanDirtyChange d inFlight relative) (fun out _ => ∀ x ∈ out, Blockless x)
      (fun _ => False) s := by
  refine scanDirtyChange_cases (P := (Ends · _ _ _)) (by simp) (fun _ => ?_) fun _ _ => ?_
  · simp only [ends_bind, ends_logged, ends_ite, ends_pure]
    have hdeleted (files : List FileInfo) (t : ScanState) (hfiles : ∀ x ∈ files, Blockless x) :
        (inFlight = true → ∀ x ∈ files, Blockless x) ∧ (¬ inFlight = true →
          Ends (env.markDeletedSubtree d relative)
            (fun out _ => ∀ x ∈ files ++ out, Blockless x) (fun _ => ∀ x ∈ files ++ [], Blockless x)
            t) :=
      ⟨fun _ => hfiles, fun _ => ends_markDeletedSubtree_blockless.imp
        (fun _ _ h => forall_mem_append.mpr ⟨hfiles, h⟩) fun _ _ => by simpa using hfiles⟩
    refine ends_scanFolderAt.imp (fun files t h => hdeleted files t fun x hx => ?_)
      fun t _ => hdeleted [] t (by simp)
    obtain ⟨y, rfl, -⟩ := h.2 x hx
    exact blockless_clearDeletedBlocks
  · simp only [ends_logged, ends_bind, ends_pure]
    exact ends_scanChangedFile_takes.imp (fun out t h => by simpa using h.2) (by simp)

variable {changes deletes : List String}

theorem ends_collectDirty_blockless :
    Ends (env.collectDirty d inFlight changes deletes) (fun out _ => ∀ x ∈ out, Blockless x)
      (fun _ => False) s := by
  unfold collectDirty
  simp only [ends_bind, ends_pure]
  refine (ends_concat (fun _ => True) Blockless (fun relative _ t _ => ?_) trivial).imp
    (fun changed t ht => ?_) fun _ => id
  · exact ends_scanDirtyChange_blockless.imp (fun _ _ h => ⟨trivial, h⟩) fun _ => id
  refine (ends_concat (fun _ => True) Blockless (fun relative _ u _ => ?_) trivial).imp
    (fun deleted u hu => forall_mem_append.mpr ⟨ht.2, hu.2⟩) fun _ => id
  unfold scanDirtyDelete
  simp only [ends_ite, ends_pure, ends_logged]
  exact ⟨by simp, fun _ => ends_markDeletedSubtree_blockless.imp (fun _ _ h => ⟨trivial, h⟩)
    (by simp)⟩

theorem search_of_storing {search : ScanM (List FileInfo)}
    (h : env.storing search s = .ok files t) : ∃ u, search s = .ok files u := by
  unfold storing at h
  cases hs : search s with
  | error e u => simp [bind, EStateM.bind, hs] at h
  | ok changed u =>
    cases hstore : changed.forM env.updateFile u <;>
      simp_all [bind, EStateM.bind, pure, EStateM.pure]

theorem scanIncremental_ok (h : env.scanIncremental d inFlight changes deletes s = .ok files t) :
    ∃ u, env.collectDirty d inFlight changes deletes s = .ok files u := by
  rw [scanIncremental_eq] at h
  obtain ⟨u, h⟩ := search_of_storing h
  have hfind : env.findDirty d inFlight changes deletes =
      env.collectDirty d inFlight changes deletes >>= fun found =>
        pure ((detectAndReorderRenames found).map clearDeletedBlocks) := by
    simp [findDirty, collectDirty]
  rw [hfind] at h
  cases hcollect : env.collectDirty d inFlight changes deletes s with
  | error e v => simp [bind, EStateM.bind, hcollect] at h
  | ok found v =>
    have hblockless := ends_collectDirty_blockless.of_ok hcollect
    have hfound : (detectAndReorderRenames found).map clearDeletedBlocks = found := by
      rw [detectAndReorderRenames_eq fun file _ del hdel _ hgone => by
        simp [hasSameBlocks, hblockless del hdel hgone]]
      exact (map_congr_left fun x hx =>
        clearDeletedBlocks_of_blockless (hblockless x hx)).trans (map_id' _)
    simp only [bind, EStateM.bind, hcollect, pure, EStateM.pure, hfound] at h
    cases h
    exact ⟨_, rfl⟩

end ScanEnv

/-! ### The announced order in terms of the reported paths -/

/-- Renamed files come first if none comes behind something else. -/
theorem targetsFirst_iff : TargetsFirst db changed ↔
    changed.Pairwise fun f g => RenameTarget db changed g → RenameTarget db changed f := by
  have hlist : ∀ (P : FileInfo → Prop) (l : List FileInfo),
      (∃ front back, l = front ++ back ∧ (∀ f ∈ front, P f) ∧ ∀ f ∈ back, ¬ P f) ↔
        l.Pairwise fun f g => P g → P f := by
    intro P l
    induction l with
    | nil => exact ⟨fun _ => .nil, fun _ => ⟨[], [], by simp⟩⟩
    | cons f l ih =>
      rw [pairwise_cons, ← ih]
      constructor
      · rintro ⟨front, back, heq, hfront, hback⟩
        cases front with
        | nil =>
          subst heq
          exact ⟨fun g hg h => absurd h (hback g (mem_cons_of_mem _ hg)), [], l, rfl, by simp,
            fun g hg => hback g (mem_cons_of_mem _ hg)⟩
        | cons f' front =>
          obtain ⟨rfl, rfl⟩ := cons.inj heq
          exact ⟨fun _ _ _ => hfront _ mem_cons_self, front, back, rfl,
            fun g hg => hfront g (mem_cons_of_mem _ hg), hback⟩
      · rintro ⟨hf, front, back, rfl, hfront, hback⟩
        by_cases hP : P f
        · exact ⟨f :: front, back, rfl, forall_mem_cons.mpr ⟨hP, hfront⟩, hback⟩
        · have hnone : front = [] := eq_nil_iff_forall_not_mem.mpr fun g hg =>
            hP (hf g (mem_append_left _ hg) (hfront g hg))
          subst hnone
          exact ⟨[], f :: back, rfl, by simp, forall_mem_cons.mpr ⟨hP, hback⟩⟩
  exact hlist (RenameTarget db changed) changed

section reported
variable (env) (d) (db)

/-- A changed path is a file whose block hashes are not the recorded ones. -/
def Reports (relative : String) (hashes : List Bytes) : Prop :=
  env.LooksAt d relative relative hashes ∧ ¬ Recorded db relative hashes

/-- A recorded file is gone, and at or below a path that is reported as deleted. -/
def Gone (deletes : List String) (old : FileInfo) : Prop :=
  old ∈ db.entries ∧ old.isDeleted = false ∧ d.pathExists (namePath old.name) = false ∧
    ∃ relative ∈ deletes, d.pathExists (namePath relative) = false ∧
      isDefaultIgnoredPath relative = false ∧ (old.name = relative ∨ Text.startsWith old.name
        (if Text.endsWith relative "/" then relative else relative ++ "/") = true)

/-- The records are the deletions of the files that are gone. -/
structure DeletesGone (d : Disk) (db : FolderFiles) (deletes : List String) (out : List FileInfo) :
    Prop where
  deleted : ∀ x ∈ out, x.isDeleted = true
  names : ∀ name, (∃ x ∈ out, x.name = name) ↔ ∃ old, Gone d db deletes old ∧ old.name = name

/-- A reported file has the blocks of a file that is gone. -/
def RenamedFrom (deletes : List String) (relative : String) : Prop :=
  ∃ hashes, Reports env d db relative hashes ∧ hashes ≠ [] ∧
    ∃ old, Gone d db deletes old ∧ old.blockHashes = hashes

/-- What a changed path that is no directory brings. -/
def Brings (relative : String) (pushed : Option FileInfo) : Prop :=
  match pushed with
  | some x => x.isDeleted = false ∧ Reports env d db relative x.blockHashes
  | none => ∀ hashes, ¬ Reports env d db relative hashes

end reported

theorem Reports.hashes_eq {relative : String} {hashes hashes' : List Bytes}
    (h : Reports env d db relative hashes) (h' : Reports env d db relative hashes')
    (hdir : d.isDir (namePath relative) = false) : hashes = hashes' := by
  cases h.1 with
  | walk hdir' =>
    rw [hdir] at hdir'
    cases hdir'
  | file hread =>
    cases h'.1 with
    | walk hdir' =>
      rw [hdir] at hdir'
      cases hdir'
    | file hread' => rw [Option.some.inj (hread.symm.trans hread')]

namespace ScanEnv
variable {inFlight : Bool} {changes deletes : List String} {relative : String}

section
variable (hcalm : ¬ env.Fails [])
include hcalm

theorem ends_scanDirtyChange_brings (hdir : d.isDir (namePath relative) = false) :
    Ends (env.scanDirtyChange d inFlight relative) (fun out t => t.db = s.db ∧
      ∃ pushed, out = pushed.toList ∧ Brings env d s.db relative pushed) (fun _ => False) s := by
  have hno : ∀ {hashes}, env.LooksAt d relative relative hashes →
      ∃ content, d.read? (namePath relative) = some content ∧ isDefaultIgnoredPath relative = false ∧
        isIgnoredWithAncestors env.matcher relative false = false ∧
        hashes = (contentBlocks env.sha256 content).map (·.hash) := by
    intro hashes hlooks
    cases hlooks with
    | file hread hmetadata hignored => exact ⟨_, hread, hmetadata, hignored, rfl⟩
    | walk hdir' =>
      rw [hdir] at hdir'
      cases hdir'
  refine scanDirtyChange_cases (P := (Ends · _ _ _)) (fun hread _ => ?_) (fun hdir' => ?_)
    fun content hread => ?_
  · rw [ends_pure]
    refine ⟨rfl, none, rfl, fun hashes h => ?_⟩
    obtain ⟨content, hread', -⟩ := hno h.1
    rw [hread] at hread'
    cases hread'
  · rw [hdir] at hdir'
    cases hdir'
  · simp only [ends_logged, ends_bind, ends_pure]
    rcases scanChangedFile_of_read env hread with ⟨hscan, hskip⟩ |
      ⟨hmetadata, hignored, modified, hscan⟩
    · rw [hscan, ends_pure]
      refine ⟨rfl, none, rfl, fun hashes h => ?_⟩
      obtain ⟨-, -, hmetadata, hignored, -⟩ := hno h.1
      simp [hmetadata, hignored] at hskip
    · rw [hscan]
      simp only [ends_bind, ends_require]
      refine ⟨fun file hfile => ?_, fun _ herror =>
        absurd (fails_of_scanFile nil_prefix herror) hcalm⟩
      obtain rfl := scanFile_ok hfile
      refine ends_compareFile.imp (fun out t h => ⟨h.1, out, rfl, ?_⟩)
        fun _ h => absurd (h.2 []) hcalm
      have hlooks : env.LooksAt d relative relative
          ((contentBlocks env.sha256 content).map (·.hash)) := .file hread hmetadata hignored
      cases out with
      | none =>
        intro hashes hreports
        obtain ⟨content', hread', -, -, rfl⟩ := hno hreports.1
        cases hread.symm.trans hread'
        exact hreports.2 h.2
      | some x =>
        obtain ⟨-, hdeleted, hnot⟩ := unrecorded_of_compared h.2
        have hblocks : x.blockHashes = (contentBlocks env.sha256 content).map (·.hash) :=
          congrArg (map BlockInfo.hash) (blocks_of_compared h.2).1
        rw [Brings, hblocks]
        exact ⟨hdeleted, hlooks, hnot⟩

/-- The changed files, in the order of the reported paths. -/
theorem ends_concat_brings (hdirs : ∀ relative ∈ changes, d.isDir (namePath relative) = false) :
    Ends (concat (env.scanDirtyChange d inFlight) changes) (fun out t => t.db = s.db ∧
      ∃ pushed, out = pushed.flatMap Option.toList ∧ Forall₂ (Brings env d s.db) changes pushed)
      (fun _ => False) s := by
  induction changes generalizing s with
  | nil =>
    rw [concat, ends_pure]
    exact ⟨rfl, [], rfl, .nil⟩
  | cons relative changes ih =>
    simp only [concat, ends_bind, ends_pure]
    refine (ends_scanDirtyChange_brings hcalm (hdirs _ mem_cons_self)).imp
      (fun out t ht => ?_) fun _ => id
    obtain ⟨htdb, pushed, rfl, hpushed⟩ := ht
    refine (ih fun q hq => hdirs q (mem_cons_of_mem _ hq)).imp (fun rest u hu => ?_) fun _ => id
    obtain ⟨hudb, more, rfl, hmore⟩ := hu
    rw [htdb] at hudb hmore
    exact ⟨hudb, pushed :: more, rfl, .cons hpushed hmore⟩

theorem ends_scanDirtyDelete_gone : Ends (env.scanDirtyDelete d relative)
    (fun out t => t.db = s.db ∧ DeletesGone d s.db [relative] out) (fun _ => False) s := by
  have hnothing (hskip : ∀ old, ¬ Gone d s.db [relative] old) :
      True ∧ DeletesGone d s.db [relative] [] :=
    ⟨trivial, by simp, fun name => ⟨by simp, fun ⟨old, h, _⟩ => absurd h (hskip old)⟩⟩
  unfold scanDirtyDelete markDeletedSubtree getFolderFiles
  simp only [ends_ite, ends_pure, ends_logged, ends_bind, ends_require, ends_get]
  refine ⟨fun hexists => hnothing fun old h => ?_, fun hexists => ⟨fun hignored =>
    hnothing fun old h => ?_, fun hignored => ⟨fun _ _ => ?_, fun _ herror =>
      absurd (fails_of_database rfl herror) hcalm⟩⟩⟩
  · obtain ⟨-, -, -, q, hq, hgone, -⟩ := h
    rw [mem_singleton.mp hq, hexists] at hgone
    cases hgone
  · obtain ⟨-, -, -, q, hq, -, hkept, -⟩ := h
    rw [mem_singleton.mp hq, hignored] at hkept
    cases hkept
  rw [Bool.not_eq_true] at hexists hignored
  -- a record is pushed if it is live, at or below the path, and no longer on disk
  refine (ends_collect_complete (E := fun _ => False) (fun t : ScanState => t.db = s.db)
    (fun old pushed => match pushed with
      | some x => x.isDeleted = true ∧ x.name = old.name ∧ Gone d s.db [relative] old
      | none => ¬ Gone d s.db [relative] old) (fun old hold t ht => ?_) rfl).imp
    (fun out t h => ⟨h.1, fun x hx => ?_, fun name => ⟨?_, ?_⟩⟩) fun _ => False.elim
  · unfold markVanished
    simp only [ends_ite, ends_bind, ends_pure]
    refine ⟨fun hdeleted => ⟨ht, fun h => ?_⟩, fun hlive => ⟨fun hbelow => ⟨fun hthere =>
      ⟨ht, fun h => ?_⟩, fun hgone => ends_incrementSequence (fun sequence => ⟨ht, rfl, rfl, ?_⟩)
        fun h => absurd (h []) hcalm⟩, fun hbelow => ⟨ht, fun h => ?_⟩⟩⟩
    · rw [h.2.1] at hdeleted
      cases hdeleted
    · rw [h.2.2.1] at hthere
      cases hthere
    · exact ⟨hold, by simpa using hlive, by simpa using hgone, relative, mem_singleton_self _,
        hexists, hignored, by simpa using hbelow⟩
    · obtain ⟨-, -, -, q, hq, -, -, hbelow'⟩ := h
      rw [mem_singleton.mp hq] at hbelow'
      exact hbelow (by simpa using hbelow')
  · obtain ⟨old, -, hdeleted, -⟩ := h.2.1 x hx
    exact hdeleted
  · rintro ⟨x, hx, rfl⟩
    obtain ⟨old, -, -, hname, hgone⟩ := h.2.1 x hx
    exact ⟨old, hgone, hname.symm⟩
  · rintro ⟨old, hgone, rfl⟩
    obtain ⟨x, hx, -, hname, -⟩ := (h.2.2 old hgone.1).resolve_left fun hnot => hnot hgone
    exact ⟨x, hx, hname⟩

/-- The deletions are those of the files that are gone. -/
theorem ends_concat_gone : Ends (concat (env.scanDirtyDelete d) deletes)
    (fun out t => t.db = s.db ∧ DeletesGone d s.db deletes out) (fun _ => False) s := by
  induction deletes generalizing s with
  | nil =>
    rw [concat, ends_pure]
    exact ⟨rfl, by simp, by simp [Gone]⟩
  | cons relative deletes ih =>
    simp only [concat, ends_bind, ends_pure]
    refine (ends_scanDirtyDelete_gone hcalm).imp (fun out t ht => ?_) fun _ => id
    refine ih.imp (fun rest u hu => ?_) fun _ => id
    rw [ht.1] at hu
    refine ⟨hu.1, forall_mem_append.mpr ⟨ht.2.deleted, hu.2.deleted⟩, fun name => ?_⟩
    have hcons : ∀ old, Gone d s.db (relative :: deletes) old ↔
        Gone d s.db [relative] old ∨ Gone d s.db deletes old := by
      intro old
      constructor
      · rintro ⟨hold, hlive, hgone, q, hq, hbelow⟩
        rcases mem_cons.mp hq with rfl | hq
        · exact .inl ⟨hold, hlive, hgone, q, mem_singleton_self q, hbelow⟩
        · exact .inr ⟨hold, hlive, hgone, q, hq, hbelow⟩
      · rintro (⟨hold, hlive, hgone, q, hq, hbelow⟩ | ⟨hold, hlive, hgone, q, hq, hbelow⟩)
        · exact ⟨hold, hlive, hgone, q, mem_cons.mpr (.inl (mem_singleton.mp hq)), hbelow⟩
        · exact ⟨hold, hlive, hgone, q, mem_cons_of_mem _ hq, hbelow⟩
    simp only [mem_append, or_and_right, exists_or, hcons, ht.2.names name, hu.2.names name]

end

/-- What an incremental scan without changed directories announces. -/
theorem scanIncremental_reported (hcalm : ¬ env.Fails [])
    (hdirs : ∀ relative ∈ changes, d.isDir (namePath relative) = false)
    (h : env.scanIncremental d inFlight changes deletes s = .ok files t) :
    ∃ pushed deleted, files = pushed.flatMap Option.toList ++ deleted ∧
      Forall₂ (Brings env d s.db) changes pushed ∧ DeletesGone d s.db deletes deleted := by
  obtain ⟨u, hfound⟩ := scanIncremental_ok h
  have hends : Ends (env.collectDirty d inFlight changes deletes) (fun out _ =>
      ∃ pushed deleted, out = pushed.flatMap Option.toList ++ deleted ∧
        Forall₂ (Brings env d s.db) changes pushed ∧ DeletesGone d s.db deletes deleted)
      (fun _ => False) s := by
    unfold collectDirty
    simp only [ends_bind, ends_pure]
    refine (ends_concat_brings hcalm hdirs).imp (fun out t ht => ?_) fun _ => id
    obtain ⟨htdb, pushed, rfl, hpushed⟩ := ht
    refine (ends_concat_gone hcalm).imp (fun deleted u hu => ?_) fun _ => id
    rw [htdb] at hu
    exact ⟨pushed, deleted, rfl, hpushed, hu.2⟩
  exact hends.of_ok hfound

end ScanEnv

section order
variable {changes : List String} {pushed : List (Option FileInfo)} {x : FileInfo}
  (hpushed : Forall₂ (Brings env d db) changes pushed)
include hpushed

theorem exists_brings (hx : x ∈ pushed.flatMap Option.toList) :
    ∃ relative ∈ changes, Brings env d db relative (some x) := by
  induction hpushed with
  | nil => cases hx
  | @cons relative o changes pushed ho _ ih =>
    rcases mem_append.mp (flatMap_cons ▸ hx) with hx | hx
    · rw [Option.mem_toList.mp hx] at ho
      exact ⟨relative, mem_cons_self, ho⟩
    · obtain ⟨q, hq, h⟩ := ih hx
      exact ⟨q, mem_cons_of_mem _ hq, h⟩

theorem exists_pushed {relative : String} {hashes : List Bytes} (hin : relative ∈ changes)
    (h : Reports env d db relative hashes) :
    ∃ x ∈ pushed.flatMap Option.toList, Brings env d db relative (some x) := by
  induction hpushed with
  | nil => cases hin
  | @cons relative' o changes pushed ho _ ih =>
    rw [flatMap_cons]
    rcases mem_cons.mp hin with rfl | hin
    · cases o with
      | none => exact absurd h (ho hashes)
      | some x => exact ⟨x, mem_append_left _ (mem_singleton_self x), ho⟩
    · obtain ⟨x, hx, hbrings⟩ := ih hin
      exact ⟨x, mem_append_right _ hx, hbrings⟩

/-- An order of the pushed files is one of the paths that report them. -/
theorem pairwise_pushed_iff {T : FileInfo → Prop} {N : String → Prop}
    (hT : ∀ relative ∈ changes, ∀ x, Brings env d db relative (some x) → (T x ↔ N relative))
    (hN : ∀ relative, N relative → ∃ hashes, Reports env d db relative hashes) :
    (pushed.flatMap Option.toList).Pairwise (fun f g => T g → T f) ↔
      changes.Pairwise fun p q => (∃ hashes, Reports env d db p hashes) → N q → N p := by
  induction hpushed with
  | nil => simp
  | @cons relative o changes pushed ho hpushed ih =>
    have ih := ih fun q hq => hT q (mem_cons_of_mem _ hq)
    rw [flatMap_cons, pairwise_cons]
    cases o with
    | none =>
      refine ih.trans (and_iff_right ?_).symm
      rintro q - ⟨hashes, h⟩
      exact absurd h (ho hashes)
    | some x =>
      rw [Option.toList_some, singleton_append, pairwise_cons, ih, hT relative mem_cons_self x ho]
      refine and_congr_left fun _ => ⟨fun h q hq _ hNq => ?_, fun h g hg hTg => ?_⟩
      · obtain ⟨hashes, hreports⟩ := hN q hNq
        obtain ⟨g, hg, hbrings⟩ := exists_pushed hpushed hq hreports
        exact h g hg ((hT q (mem_cons_of_mem _ hq) g hbrings).mpr hNq)
      · obtain ⟨q, hq, hbrings⟩ := exists_brings hpushed hg
        exact h q hq ⟨_, ho.2⟩ ((hT q (mem_cons_of_mem _ hq) g hbrings).mp hTg)

end order

/-- A pushed file is a rename target if its path is renamed from something. -/
theorem renameTarget_iff {deletes : List String} {relative : String} {x : FileInfo}
    {pushed : List (Option FileInfo)} {changes : List String}
    (hpushed : Forall₂ (Brings env d db) changes pushed)
    (hdeleted : DeletesGone d db deletes deleted)
    (hdir : d.isDir (namePath relative) = false) (hx : Brings env d db relative (some x)) :
    RenameTarget db (pushed.flatMap Option.toList ++ deleted) x ↔
      RenamedFrom env d db deletes relative := by
  have hlive : ∀ y ∈ pushed.flatMap Option.toList, y.isDeleted = false := by
    intro y hy
    obtain ⟨q, -, hq⟩ := exists_brings hpushed hy
    exact hq.1
  constructor
  · rintro ⟨-, del, hdel, hgone, old, hold, hsame⟩
    have hin : del ∈ deleted := (mem_append.mp hdel).resolve_left fun hin => by
      rw [hlive del hin] at hgone
      cases hgone
    obtain ⟨old', hgone', hname⟩ := (hdeleted.names del.name).mp ⟨del, hin, rfl⟩
    have hfind := KeyedList.find?_key hgone'.1
    rw [hname] at hfind
    cases hold.symm.trans hfind
    obtain ⟨hne, heq⟩ := hasSameBlocks_iff.mp hsame
    exact ⟨x.blockHashes, hx.2, hne, old, hgone', heq⟩
  · rintro ⟨hashes, hreports, hne, old, hgone, hblocks⟩
    have heq := hx.2.hashes_eq hreports hdir
    obtain ⟨del, hdel, hname⟩ := (hdeleted.names old.name).mpr ⟨old, hgone, rfl⟩
    refine ⟨hx.1, del, mem_append_right _ hdel, hdeleted.deleted del hdel, old, ?_, ?_⟩
    · rw [hname]
      exact KeyedList.find?_key hgone.1
    · exact hasSameBlocks_iff.mpr ⟨heq ▸ hne, hblocks.trans heq.symm⟩

section loops
variable (changed)

/-- A renamed file goes to the front, once, and is flagged as added. -/
def pushTarget (state : List FileInfo × (Nat → Bool)) (idx : Nat) : List FileInfo × (Nat → Bool) :=
  if !state.2 idx then (state.1 ++ changed[idx]?.toList, Function.update state.2 idx true)
  else state

/-- `detect_and_reorder_renames` with its index list and its flags. -/
def reorderByFlags : List FileInfo :=
  let renameTargets :=
    (changed.zipIdx.filter fun x => isRenameTarget changed x.1 x.2).map Prod.snd
  if renameTargets.isEmpty then changed
  else
    let (reordered, added) := renameTargets.foldl (pushTarget changed) ([], fun _ => false)
    reordered ++ (changed.zipIdx.filter fun x => !added x.2).map Prod.fst

variable {changed}

theorem foldl_pushTarget {targets : List Nat} {out : List FileInfo} {added : Nat → Bool}
    (hnodup : targets.Nodup) (hfree : ∀ i ∈ targets, added i = false) :
    targets.foldl (pushTarget changed) (out, added) =
      (out ++ targets.filterMap (changed[·]?), fun i => added i || targets.contains i) := by
  induction targets generalizing out added with
  | nil => simp
  | cons j targets ih =>
    obtain ⟨hj, hnodup⟩ := nodup_cons.mp hnodup
    obtain ⟨hfirst, hrest⟩ := forall_mem_cons.mp hfree
    have hpush : pushTarget changed (out, added) j =
        (out ++ changed[j]?.toList, Function.update added j true) := by simp [pushTarget, hfirst]
    rw [foldl_cons, hpush, ih hnodup fun i hi => ?_]
    · refine Prod.ext ?_ (funext fun i => ?_)
      · cases h : changed[j]? <;> simp [h]
      · by_cases hi : i = j <;> simp [hi]
    · rw [Function.update_of_ne (by rintro rfl; exact hj hi), hrest i hi]

/-- The flags are those of the renamed files. -/
theorem reorderByFlags_eq : reorderByFlags changed = detectAndReorderRenames changed := by
  obtain ⟨targets, htargets⟩ : ∃ targets, targets = (changed.zipIdx.filter fun x =>
    isRenameTarget changed x.1 x.2).map Prod.snd := ⟨_, rfl⟩
  have hindices : (changed.zipIdx.map Prod.snd).Nodup := by
    rw [zipIdx_map_snd]
    exact nodup_range'
  have hnodup : targets.Nodup := htargets ▸ hindices.sublist (filter_sublist.map _)
  have hflag : ∀ x ∈ changed.zipIdx,
      (!targets.contains x.2) = !isRenameTarget changed x.1 x.2 := by
    intro x hx
    rw [htargets, Bool.not_inj_iff, Bool.eq_iff_iff, contains_iff_mem, mem_map]
    constructor
    · rintro ⟨y, hy, heq⟩
      obtain ⟨hy, htarget⟩ := mem_filter.mp hy
      rwa [inj_on_of_nodup_map hindices hy hx heq] at htarget
    · exact fun htarget => ⟨x, mem_filter.mpr ⟨hx, htarget⟩, rfl⟩
  have hadded : reorderByFlags changed = targets.filterMap (changed[·]?) ++
      (changed.zipIdx.filter fun x => !targets.contains x.2).map Prod.fst := by
    simp only [reorderByFlags, ← htargets]
    split
    next hempty => simp [List.isEmpty_iff.mp hempty, zipIdx_map_fst]
    · simp only [foldl_pushTarget hnodup fun _ _ => rfl, nil_append, Bool.false_or]
  rw [hadded, filter_congr hflag, htargets, filterMap_map]
  simp only [detectAndReorderRenames, partition_eq_filter_filter, map_append]
  congr 1
  rw [← filterMap_eq_map]
  exact filterMap_congr fun x hx => mem_zipIdx_iff_getElem?.mp (mem_filter.mp hx).1

/-- Renamed files come first, and both they and the others are in the order of the list. -/
theorem rename_reordering_stable (changed : List FileInfo) :
    let renamed : FileInfo → Bool := fun f => f.isDeleted = false ∧ f.blockHashes ≠ [] ∧
      ∃ del ∈ changed, del.isDeleted = true ∧ del.blockHashes = f.blockHashes
    (reorderByFlags changed).Perm changed ∧
      reorderByFlags changed = changed.filter renamed ++ changed.filter (!renamed ·) := by
  intro renamed
  have hrenamed : isRenamed changed = renamed := by
    funext f
    rw [Bool.eq_iff_iff]
    simp only [isRenamed, renamed, Bool.and_eq_true, Bool.not_eq_true', any_eq_true,
      hasSameBlocks_iff, decide_eq_true_eq]
    grind
  rw [reorderByFlags_eq, ← hrenamed]
  exact ⟨detectAndReorderRenames_perm, detectAndReorderRenames_eq_filter⟩

end loops

end Syncthing
